/-
  HftLab.OrderBook.Layout — where the slots of the pool are.

  `Layout V c F Q X`: the free list of `c` is `F`, the queue of level `p` is `Q p` (a well-formed
  doubly linked list of orders that carry the price `p`), `X` are the slots held by nobody but a
  running call, and together with the waiting stops these are all slots, each in one place.
  `Links V c X` says the same of the lists that `freeList` and `queue` compute (`Layout.eq`: no
  others will do). One lemma for each helper of the source that moves a slot: `alloc`, `free`,
  `enqueue`, `unlink` (`splice`), `requeue`, `park`, `unpark`; `setOrder` and `setLevel` for the
  writes that move nothing.
-/

import HftLab.OrderBook.Auction

namespace HftLab.OrderBook

open Lib Function List

/-- The order without the links of its slot. -/
def Order.strip (o : Order) : Order := { o with nextAtLevel := none, prevAtLevel := none, nextFree := none }

namespace Core

def next (c : Core) (i : Nat) : Option Nat := (c.pool i).nextAtLevel

def prev (c : Core) (i : Nat) : Option Nat := (c.pool i).prevAtLevel

def nextFree (c : Core) (i : Nat) : Option Nat := (c.pool i).nextFree

def price (c : Core) (i : Nat) : Int := (c.pool i).priceTicks

end Core

structure Layout (V : Env) (c : Core) (F : List Nat) (Q : Int → List Nat) (X : List Nat) : Prop where
  level : ∀ p, DList c.next c.prev (c.levels p).head (c.levels p).tail (Q p)
  free : Seg c.nextFree c.freeHead F none
  nodup : (F ++ c.stopOrders ++ X).Nodup
  apart : ∀ p, ∀ i ∈ Q p, i ∉ F ++ c.stopOrders ++ X
  price : ∀ p, ∀ i ∈ Q p, c.price i = p
  grid : ∀ p, ∀ i ∈ Q p, inRange V p
  cover : ∀ i, i < V.MAX_ORDERS ↔ i ∈ F ++ c.stopOrders ++ X ∨ ∃ p, i ∈ Q p
  active : c.activeOrders + F.length = V.MAX_ORDERS

def Links (V : Env) (c : Core) (X : List Nat) : Prop := Layout V c (c.freeList V) (c.queue V) X

/-! ## What the helpers write -/

namespace Core

variable (c : Core) (i j : Nat) (o : Order) (p : Int) (l : PriceLevel) (x v : Option Nat)

/-- The order in slot `j` without its three links. -/
def body (c : Core) (j : Nat) : Order := (c.pool j).strip

@[simp] theorem setOrder_pool_self : (c.setOrder i o).pool i = o := update_self ..

theorem setOrder_pool_of_ne {c : Core} {i j : Nat} {o : Order} (h : j ≠ i) : (c.setOrder i o).pool j = c.pool j :=
  update_of_ne h _ _

@[simp] theorem setLevel_levels_self : (c.setLevel p l).levels p = l := update_self ..

theorem setLevel_levels_of_ne {c : Core} {p q : Int} {l : PriceLevel} (h : q ≠ p) :
    (c.setLevel p l).levels q = c.levels q := update_of_ne h _ _

/-- A link write changes nothing else in a slot. -/
theorem setNext_pool : (c.setNext x v).pool j = { c.pool j with nextAtLevel := setAt c.next x v j } := by
  cases x with
  | none => rfl
  | some a =>
    by_cases e : j = a
    · subst e
      simp [setNext, setAt]
    · rw [setAt_of_ne (by simpa using Ne.symm e)]
      exact update_of_ne e _ _

theorem setPrev_pool : (c.setPrev x v).pool j = { c.pool j with prevAtLevel := setAt c.prev x v j } := by
  cases x with
  | none => rfl
  | some a =>
    by_cases e : j = a
    · subst e
      simp [setPrev, setAt]
    · rw [setAt_of_ne (by simpa using Ne.symm e)]
      exact update_of_ne e _ _

theorem splice_pool : (c.splice p i).pool j =
    { c.pool j with nextAtLevel := setAt c.next (c.prev i) (c.next i) j
                    prevAtLevel := setAt c.prev (c.next i) (c.prev i) j } := by
  show ((c.setNext (c.prev i) (c.next i)).setPrev (c.next i) (c.prev i)).pool j = _
  rw [setPrev_pool, setNext_pool]
  have : (c.setNext (c.prev i) (c.next i)).prev = c.prev := by
    funext k
    simp only [prev, setNext_pool]
  rw [this]

theorem splice_next : (c.splice p i).next = setAt c.next (c.prev i) (c.next i) := by
  funext j
  simp only [next, splice_pool]

theorem splice_prev : (c.splice p i).prev = setAt c.prev (c.next i) (c.prev i) := by
  funext j
  simp only [prev, splice_pool]

theorem splice_body : (c.splice p i).body = c.body := by
  funext j
  simp only [body, splice_pool, Order.strip]

theorem splice_levels_self : (c.splice p i).levels p = { c.levels p with
    head := if (c.prev i).isSome then (c.levels p).head else c.next i
    tail := if (c.next i).isSome then (c.levels p).tail else c.prev i } := setLevel_levels_self ..

theorem splice_levels_of_ne {p q : Int} (h : q ≠ p) : (c.splice p i).levels q = c.levels q :=
  setLevel_levels_of_ne h

theorem unlinkFromLevel_levels_of_ne {q : Int} (h : q ≠ c.price i) : (c.unlinkFromLevel i).levels q = c.levels q :=
  (setLevel_levels_of_ne h).trans (splice_levels_of_ne c i h)

theorem unlinkFromLevel_levels_self : (c.unlinkFromLevel i).levels (c.price i) =
    { head := if (c.prev i).isSome then (c.levels (c.price i)).head else c.next i
      tail := if (c.next i).isSome then (c.levels (c.price i)).tail else c.prev i
      totalQty := i32 ((c.levels (c.price i)).totalQty - (c.pool i).displayedQty)
      totalHidden := i32 ((c.levels (c.price i)).totalHidden - (c.pool i).hiddenQty)
      orderCount := if 0 < (c.levels (c.price i)).orderCount then (c.levels (c.price i)).orderCount - 1
        else (c.levels (c.price i)).orderCount } := by
  have h : (c.unlinkFromLevel i).levels (c.price i) =
      { (c.splice (c.price i) i).levels (c.price i) with
        totalQty := i32 (((c.splice (c.price i) i).levels (c.price i)).totalQty - (c.pool i).displayedQty)
        totalHidden := i32 (((c.splice (c.price i) i).levels (c.price i)).totalHidden - (c.pool i).hiddenQty)
        orderCount := if 0 < ((c.splice (c.price i) i).levels (c.price i)).orderCount
          then ((c.splice (c.price i) i).levels (c.price i)).orderCount - 1
          else ((c.splice (c.price i) i).levels (c.price i)).orderCount } := setLevel_levels_self ..
  rw [h, splice_levels_self]

theorem unlinkFromLevel_body : (c.unlinkFromLevel i).body = c.body := splice_body c i (c.price i)

/-- The link writes of an append behind `x`. -/
theorem append_pool : ((c.setOrder i { c.pool i with nextAtLevel := none, prevAtLevel := x }).setNext x (some i)).pool j =
    { c.pool j with nextAtLevel := setAt (update c.next i none) x (some i) j
                    prevAtLevel := update c.prev i x j } := by
  rw [setNext_pool]
  have hn : (c.setOrder i { c.pool i with nextAtLevel := none, prevAtLevel := x }).next =
      update c.next i none := by
    funext k
    by_cases e : k = i
    · subst e
      simp [next]
    · rw [update_of_ne e]
      simp only [next, setOrder_pool_of_ne e]
  rw [hn]
  by_cases e : j = i
  · subst e
    simp
  · rw [setOrder_pool_of_ne e, update_of_ne e]
    rfl

theorem enqueueAtLevel_pool : (c.enqueueAtLevel i).pool j =
    { c.pool j with
      nextAtLevel := setAt (update c.next i none) (c.levels (c.price i)).tail (some i) j
      prevAtLevel := update c.prev i (c.levels (c.price i)).tail j } := append_pool ..

theorem requeue_pool : (c.requeue p i).pool j =
    { (c.splice p i).pool j with
      nextAtLevel := setAt (update (c.splice p i).next i none) ((c.splice p i).levels p).tail (some i) j
      prevAtLevel := update (c.splice p i).prev i ((c.splice p i).levels p).tail j } := append_pool ..

theorem requeue_levels_self : (c.requeue p i).levels p = { (c.splice p i).levels p with tail := some i } :=
  setLevel_levels_self ..

theorem requeue_levels_of_ne {q : Int} (h : q ≠ p) : (c.requeue p i).levels q = c.levels q :=
  (setLevel_levels_of_ne h).trans (splice_levels_of_ne c i h)

theorem requeue_body : (c.requeue p i).body = c.body := by
  funext j
  simp only [body, requeue_pool, splice_pool, Order.strip]

theorem enqueueAtLevel_body : (c.enqueueAtLevel i).body = c.body := by
  funext j
  simp only [body, enqueueAtLevel_pool, Order.strip]

theorem enqueueAtLevel_levels_of_ne {q : Int} (h : q ≠ c.price i) : (c.enqueueAtLevel i).levels q = c.levels q :=
  setLevel_levels_of_ne h

theorem enqueueAtLevel_levels_self : (c.enqueueAtLevel i).levels (c.price i) =
    { head := if (c.levels (c.price i)).tail.isSome then (c.levels (c.price i)).head else some i
      tail := some i
      totalQty := i32 ((c.levels (c.price i)).totalQty + (c.pool i).displayedQty)
      totalHidden := i32 ((c.levels (c.price i)).totalHidden + (c.pool i).hiddenQty)
      orderCount := (c.levels (c.price i)).orderCount + 1 } := setLevel_levels_self ..

theorem setOrder_body : (c.setOrder i o).body = update c.body i o.strip := by
  funext j
  by_cases e : j = i
  · subst e
    simp [body]
  · rw [update_of_ne e]
    simp only [body, setOrder_pool_of_ne e]

theorem setStatus_body (s : OrderStatus) :
    (c.setStatus i s).body = update c.body i { c.body i with status := s } := setOrder_body ..

theorem freeOrder_body : (c.freeOrder i).body = c.body := by
  funext j
  by_cases e : j = i
  · subst e
    simp [body, freeOrder, Order.strip]
  · simp [body, freeOrder, e]

/-- A refresh moves the cached best prices and nothing else. -/
theorem refreshIfEmptied_eq (V : Env) (side : Side) :
    ∃ x y, c.refreshIfEmptied V side p = { c with bestBid := x, bestAsk := y } := by
  unfold refreshIfEmptied
  split
  · cases side
    · dsimp only
      split
      · exact ⟨_, c.bestAsk, rfl⟩
      · exact ⟨c.bestBid, c.bestAsk, rfl⟩
    · dsimp only
      split
      · exact ⟨c.bestBid, _, rfl⟩
      · exact ⟨c.bestBid, c.bestAsk, rfl⟩
  · exact ⟨c.bestBid, c.bestAsk, rfl⟩

theorem raiseBest_eq (side : Side) : ∃ x y, c.raiseBest side p = { c with bestBid := x, bestAsk := y } := by
  unfold raiseBest
  cases side
  · dsimp only
    split
    · exact ⟨_, c.bestAsk, rfl⟩
    · exact ⟨c.bestBid, c.bestAsk, rfl⟩
  · dsimp only
    split
    · exact ⟨c.bestBid, _, rfl⟩
    · exact ⟨c.bestBid, c.bestAsk, rfl⟩

end Core

/-! ## The lists are determined -/

section

variable {V : Env} {c d : Core} {F X : List Nat} {Q : Int → List Nat}

namespace Layout

variable {i : Nat} {p : Int} {l Y : List Nat}

theorem bound (h : Layout V c F Q X) (hi : i ∈ Q p) : i < V.MAX_ORDERS :=
  (h.cover i).mpr (.inr ⟨p, hi⟩)

theorem bound_out (h : Layout V c F Q X) (hi : i ∈ F ++ c.stopOrders ++ X) : i < V.MAX_ORDERS :=
  (h.cover i).mpr (.inl hi)

theorem length_le (hn : l.Nodup) (hb : ∀ i ∈ l, i < V.MAX_ORDERS) : l.length ≤ V.MAX_ORDERS := by
  have : l ⊆ List.range V.MAX_ORDERS := fun i hi => mem_range.mpr (hb i hi)
  simpa using (subperm_of_subset hn this).length_le

theorem queue_eq (h : Layout V c F Q X) : c.queue V = Q := by
  funext p
  exact (h.level p).walk_eq (length_le (h.level p).nodup fun i hi => h.bound hi)

theorem freeList_eq (h : Layout V c F Q X) : c.freeList V = F := by
  have hn : F.Nodup := (nodup_append.mp (nodup_append.mp h.nodup).1).1
  exact walk_eq h.free (length_le hn fun i hi =>
    h.bound_out (mem_append_left _ (mem_append_left _ hi)))

theorem links (h : Layout V c F Q X) : Links V c X := by
  unfold Links
  rw [h.queue_eq, h.freeList_eq]
  exact h

theorem head_eq (h : Layout V c F Q X) (p : Int) : (c.levels p).head = (Q p).head? := (h.level p).head

theorem empty_iff (h : Layout V c F Q X) (p : Int) : (c.levels p).empty ↔ Q p = [] := by
  unfold PriceLevel.empty
  rw [h.head_eq p]
  cases Q p <;> simp

/-- A queued order is in one queue only. -/
theorem unique (h : Layout V c F Q X) {q : Int} (hp : i ∈ Q p) (hq : i ∈ Q q) : p = q := by
  rw [← h.price p i hp, h.price q i hq]

/-! ## Writes that move nothing -/

/-- The layout depends on the links, the prices, the level ends, the free list head, the waiting
    stops and the count of active orders. -/
theorem congr (h : Layout V c F Q X) (hn : ∀ p, ∀ i ∈ Q p, d.next i = c.next i)
    (hp : ∀ p, ∀ i ∈ Q p, d.prev i = c.prev i) (hf : ∀ i ∈ F, d.nextFree i = c.nextFree i)
    (hpr : ∀ p, ∀ i ∈ Q p, d.price i = c.price i)
    (hl : ∀ p, (d.levels p).head = (c.levels p).head ∧ (d.levels p).tail = (c.levels p).tail)
    (hh : d.freeHead = c.freeHead) (hs : d.stopOrders = c.stopOrders) (ha : d.activeOrders = c.activeOrders) :
    Layout V d F Q X where
  level p := by
    rw [(hl p).1, (hl p).2]
    exact (h.level p).congr (hn p) (hp p)
  free := by
    rw [hh]
    exact h.free.congr hf
  nodup := by
    rw [hs]
    exact h.nodup
  apart := by
    rw [hs]
    exact h.apart
  price p i hi := (hpr p i hi).trans (h.price p i hi)
  grid := h.grid
  cover := by
    rw [hs]
    exact h.cover
  active := by
    rw [ha]
    exact h.active

/-- Writes to the index, the best prices, the pegs and the id counter. -/
theorem same (h : Layout V c F Q X) (hp : d.pool = c.pool) (hl : d.levels = c.levels) (hh : d.freeHead = c.freeHead)
    (hs : d.stopOrders = c.stopOrders) (ha : d.activeOrders = c.activeOrders) : Layout V d F Q X := by
  refine h.congr ?_ ?_ ?_ ?_ (fun p => by rw [hl]; exact ⟨rfl, rfl⟩) hh hs ha
  · exact fun _ _ _ => by simp only [Core.next, hp]
  · exact fun _ _ _ => by simp only [Core.prev, hp]
  · exact fun _ _ => by simp only [Core.nextFree, hp]
  · exact fun _ _ _ => by simp only [Core.price, hp]

theorem eraseId (h : Layout V c F Q X) (id : Nat) : Layout V (c.eraseId id) F Q X := h.same rfl rfl rfl rfl rfl

theorem setLevel (h : Layout V c F Q X) {l : PriceLevel} (hh : l.head = (c.levels p).head) (ht : l.tail = (c.levels p).tail) :
    Layout V (c.setLevel p l) F Q X := by
  refine h.congr (fun _ _ _ => rfl) (fun _ _ _ => rfl) (fun _ _ => rfl) (fun _ _ _ => rfl) ?_ rfl rfl rfl
  intro q
  by_cases e : q = p
  · subst e
    simp [hh, ht]
  · rw [Core.setLevel_levels_of_ne e]
    exact ⟨rfl, rfl⟩

/-- A write to a slot that keeps its links and its price. -/
theorem setOrder (h : Layout V c F Q X) {o : Order} (hn : o.nextAtLevel = c.next i) (hp : o.prevAtLevel = c.prev i)
    (hf : o.nextFree = c.nextFree i) (hpr : o.priceTicks = c.price i) : Layout V (c.setOrder i o) F Q X := by
  have key : ∀ j, (c.setOrder i o).next j = c.next j ∧ (c.setOrder i o).prev j = c.prev j ∧
      (c.setOrder i o).nextFree j = c.nextFree j ∧ (c.setOrder i o).price j = c.price j := by
    intro j
    by_cases e : j = i
    · subst e
      simp only [Core.next, Core.prev, Core.nextFree, Core.price, Core.setOrder_pool_self] at hn hp hf hpr ⊢
      exact ⟨hn, hp, hf, hpr⟩
    · simp only [Core.next, Core.prev, Core.nextFree, Core.price, Core.setOrder_pool_of_ne e, and_self]
  exact h.congr (fun _ j _ => (key j).1) (fun _ j _ => (key j).2.1) (fun j _ => (key j).2.2.1)
    (fun _ j _ => (key j).2.2.2) (fun _ => ⟨rfl, rfl⟩) rfl rfl rfl

/-- Any write to a slot that is in no queue and not free. -/
theorem setOrder_out (h : Layout V c F Q X) (hi : i ∈ c.stopOrders ++ X) (o : Order) : Layout V (c.setOrder i o) F Q X := by
  have hq : ∀ p, ∀ j ∈ Q p, j ≠ i := by
    rintro p j hj rfl
    exact h.apart p j hj (by rw [append_assoc]; exact mem_append_right _ hi)
  have hf : ∀ j ∈ F, j ≠ i := by
    rintro j hj rfl
    have := h.nodup
    rw [append_assoc] at this
    exact (nodup_append.mp this).2.2 j hj j hi rfl
  refine h.congr ?_ ?_ ?_ ?_ (fun _ => ⟨rfl, rfl⟩) rfl rfl rfl
  · intro p j hj
    simp only [Core.next, Core.setOrder_pool_of_ne (hq p j hj)]
  · intro p j hj
    simp only [Core.prev, Core.setOrder_pool_of_ne (hq p j hj)]
  · intro j hj
    simp only [Core.nextFree, Core.setOrder_pool_of_ne (hf j hj)]
  · intro p j hj
    simp only [Core.price, Core.setOrder_pool_of_ne (hq p j hj)]

theorem setStatus (h : Layout V c F Q X) (i : Nat) (s : OrderStatus) : Layout V (c.setStatus i s) F Q X :=
  h.setOrder rfl rfl rfl rfl

/-! ## Moves -/

/-- Moves outside the queues: the free list, the stops and the held slots change places. -/
theorem reshuffle (h : Layout V c F Q X) {G : List Nat} (hn : ∀ p, ∀ i ∈ Q p, d.next i = c.next i)
    (hp : ∀ p, ∀ i ∈ Q p, d.prev i = c.prev i) (hpr : ∀ p, ∀ i ∈ Q p, d.price i = c.price i) (hl : d.levels = c.levels)
    (hf : Seg d.nextFree d.freeHead G none) (ho : (F ++ c.stopOrders ++ X).Perm (G ++ d.stopOrders ++ Y))
    (ha : d.activeOrders + G.length = V.MAX_ORDERS) : Layout V d G Q Y where
  level p := by
    rw [hl]
    exact (h.level p).congr (hn p) (hp p)
  free := hf
  nodup := ho.nodup_iff.mp h.nodup
  apart p i hi hm := h.apart p i hi (ho.mem_iff.mpr hm)
  price p i hi := (hpr p i hi).trans (h.price p i hi)
  grid := h.grid
  cover i := by rw [h.cover i, ho.mem_iff]
  active := ha

theorem free_nodup (h : Layout V c F Q X) : F.Nodup := (nodup_append.mp (nodup_append.mp h.nodup).1).1

theorem not_queued (h : Layout V c F Q X) (hi : i ∈ F ++ c.stopOrders ++ X) (p : Int) : i ∉ Q p :=
  fun hq => h.apart p i hq hi

theorem alloc (h : Layout V c F Q X) (ha : c.allocOrder = some (i, d)) :
    ∃ G, F = i :: G ∧ Layout V d G Q (i :: X) ∧ d.pool i = {} := by
  unfold Core.allocOrder at ha
  cases hh : c.freeHead with
  | none => rw [hh] at ha; cases ha
  | some k =>
    rw [hh] at ha
    cases ha
    have hfree := h.free
    rw [hh] at hfree
    cases F with
    | nil => cases hfree
    | cons x G =>
      obtain ⟨hx, hG⟩ := hfree
      cases hx
      have hiG : i ∉ G := (nodup_cons.mp h.free_nodup).1
      have hne : ∀ p, ∀ j ∈ Q p, j ≠ i := fun p j hj e => h.apart p j hj (e ▸ by simp)
      refine ⟨G, rfl, ?_, update_self ..⟩
      refine h.reshuffle ?_ ?_ ?_ rfl ?_ ?_ ?_
      · exact fun p j hj => by simp [Core.next, hne p j hj]
      · exact fun p j hj => by simp [Core.prev, hne p j hj]
      · exact fun p j hj => by simp [Core.price, hne p j hj]
      · exact hG.congr fun j hj => by simp [Core.nextFree, show j ≠ i from fun e => hiG (e ▸ hj)]
      · exact perm_middle.symm
      · have := h.active
        simp only [length_cons] at this
        show c.activeOrders + 1 + G.length = _
        omega

/-- Allocation fails only when no slot is free. -/
theorem alloc_none (h : Layout V c F Q X) (ha : c.allocOrder = none) : F = [] := by
  unfold Core.allocOrder at ha
  cases hh : c.freeHead with
  | some k => rw [hh] at ha; cases ha
  | none =>
    have hfree := h.free
    rw [hh] at hfree
    cases F with
    | nil => rfl
    | cons x G => cases hfree.1

theorem freeOrder (h : Layout V c F Q X) (hi : i ∈ X) : Layout V (c.freeOrder i) (i :: F) Q (X.erase i) := by
  have hout : i ∈ F ++ c.stopOrders ++ X := mem_append_right _ hi
  have hne : ∀ p, ∀ j ∈ Q p, j ≠ i := fun p j hj e => h.apart p j hj (e ▸ hout)
  have hiF : i ∉ F := by
    intro hF
    have := h.nodup
    rw [append_assoc] at this
    exact (nodup_append.mp this).2.2 i hF i (mem_append_right _ hi) rfl
  refine h.reshuffle ?_ ?_ ?_ rfl ?_ ?_ ?_
  · exact fun p j hj => by simp [Core.freeOrder, Core.next, hne p j hj]
  · exact fun p j hj => by simp [Core.freeOrder, Core.prev, hne p j hj]
  · exact fun p j hj => by simp [Core.freeOrder, Core.price, hne p j hj]
  · refine ⟨rfl, ?_⟩
    have hnf : (c.freeOrder i).nextFree i = c.freeHead := by simp [Core.freeOrder, Core.nextFree]
    rw [hnf]
    exact h.free.congr fun j hj => by
      simp [Core.freeOrder, Core.nextFree, show j ≠ i from fun e => hiF (e ▸ hj)]
  · have h1 : (F ++ c.stopOrders ++ X).Perm (F ++ c.stopOrders ++ (i :: X.erase i)) :=
      List.Perm.append_left _ (perm_cons_erase hi)
    exact h1.trans perm_middle
  · have hlen : F.length < V.MAX_ORDERS := by
      have hle := length_le (l := F ++ [i])
        (nodup_append.mpr ⟨h.free_nodup, by simp, by simpa using fun j hj (e : j = i) => hiF (e ▸ hj)⟩)
        (by
          intro j hj
          rcases mem_append.mp hj with hj | hj
          · exact h.bound_out (mem_append_left _ (mem_append_left _ hj))
          · simp at hj
            exact hj ▸ h.bound_out hout)
      rw [length_append] at hle
      exact hle
    have := h.active
    show c.activeOrders - 1 + (i :: F).length = _
    simp only [length_cons]
    omega

/-- A move in or out of level `p`, or inside it. -/
theorem relevel (h : Layout V c F Q X) {L : List Nat} (hL : DList d.next d.prev (d.levels p).head (d.levels p).tail L)
    (hl : ∀ q, q ≠ p → (d.levels q).head = (c.levels q).head ∧ (d.levels q).tail = (c.levels q).tail)
    (hn : ∀ q, q ≠ p → ∀ i ∈ Q q, d.next i = c.next i) (hp : ∀ q, q ≠ p → ∀ i ∈ Q q, d.prev i = c.prev i)
    (hf : d.nextFree = c.nextFree) (hpr : d.price = c.price) (hh : d.freeHead = c.freeHead) (hs : d.stopOrders = c.stopOrders)
    (ha : d.activeOrders = c.activeOrders) (ho : (F ++ c.stopOrders ++ X ++ Q p).Perm (F ++ c.stopOrders ++ Y ++ L))
    (hg : ∀ i ∈ L, c.price i = p) (hr : ∀ i ∈ L, inRange V p) : Layout V d F (update Q p L) Y := by
  have hnd : (F ++ c.stopOrders ++ Y ++ L).Nodup := ho.nodup_iff.mp <|
    nodup_append.mpr ⟨h.nodup, (h.level p).nodup, fun x hx y hy e => h.apart p y hy (e ▸ hx)⟩
  obtain ⟨hndO, hndL, hdis⟩ := nodup_append.mp hnd
  refine ⟨?_, ?_, ?_, ?_, ?_, ?_, ?_, ?_⟩
  · intro q
    by_cases e : q = p
    · subst e
      rw [update_self]
      exact hL
    · rw [update_of_ne e, (hl q e).1, (hl q e).2]
      exact (h.level q).congr (hn q e) (hp q e)
  · rw [hf, hh]
    exact h.free
  · rw [hs]
    exact hndO
  · rw [hs]
    intro q i hi hm
    by_cases e : q = p
    · subst e
      rw [update_self] at hi
      exact hdis i hm i hi rfl
    · rw [update_of_ne e] at hi
      rcases mem_append.mp (ho.mem_iff.mpr (mem_append_left _ hm)) with hm | hm
      · exact h.apart q i hi hm
      · exact e (h.unique hi hm)
  · rw [hpr]
    intro q i hi
    by_cases e : q = p
    · subst e
      rw [update_self] at hi
      exact hg i hi
    · rw [update_of_ne e] at hi
      exact h.price q i hi
  · intro q i hi
    by_cases e : q = p
    · subst e
      rw [update_self] at hi
      exact hr i hi
    · rw [update_of_ne e] at hi
      exact h.grid q i hi
  · rw [hs]
    intro i
    have hmem : (i ∈ F ++ c.stopOrders ++ X ∨ i ∈ Q p) ↔ (i ∈ F ++ c.stopOrders ++ Y ∨ i ∈ L) := by
      rw [← mem_append, ← mem_append]
      exact ho.mem_iff
    rw [h.cover i]
    constructor
    · rintro (hO | ⟨q, hq⟩)
      · rcases hmem.mp (.inl hO) with hO | hL
        · exact .inl hO
        · exact .inr ⟨p, by rwa [update_self]⟩
      · by_cases e : q = p
        · subst e
          rcases hmem.mp (.inr hq) with hO | hL
          · exact .inl hO
          · exact .inr ⟨q, by rwa [update_self]⟩
        · exact .inr ⟨q, by rwa [update_of_ne e]⟩
    · rintro (hO | ⟨q, hq⟩)
      · rcases hmem.mpr (.inl hO) with hO | hL
        · exact .inl hO
        · exact .inr ⟨p, hL⟩
      · by_cases e : q = p
        · subst e
          rw [update_self] at hq
          rcases hmem.mpr (.inr hq) with hO | hL
          · exact .inl hO
          · exact .inr ⟨q, hL⟩
        · rw [update_of_ne e] at hq
          exact .inr ⟨q, hq⟩
  · rw [ha]
    exact h.active

/-- Appending the held slot `i` to level `p`, as an intrusive FIFO does it. -/
theorem attach (h : Layout V c F Q X) (hi : i ∈ X) (hp : c.price i = p) (hr : inRange V p)
    (hnext : d.next = setAt (update c.next i none) (c.levels p).tail (some i))
    (hprev : d.prev = update c.prev i (c.levels p).tail)
    (hhd : (d.levels p).head = if (c.levels p).tail.isSome then (c.levels p).head else some i) (htl : (d.levels p).tail = some i)
    (hl : ∀ q, q ≠ p → d.levels q = c.levels q) (hf : d.nextFree = c.nextFree) (hpr : d.price = c.price)
    (hh : d.freeHead = c.freeHead) (hs : d.stopOrders = c.stopOrders) (ha : d.activeOrders = c.activeOrders) :
    Layout V d F (update Q p (Q p ++ [i])) (X.erase i) := by
  have hiQ : ∀ q, i ∉ Q q := h.not_queued (mem_append_right _ hi)
  refine h.relevel ?_ ?_ ?_ ?_ hf hpr hh hs ha ?_ ?_ (fun _ _ => hr)
  · rw [hnext, hprev, hhd, htl]
    exact (h.level p).push (hiQ _)
  · intro q e
    rw [hl q e]
    exact ⟨rfl, rfl⟩
  · intro q e j hj
    rw [hnext, setAt_of_ne, update_of_ne]
    · rintro rfl
      exact hiQ q hj
    · intro ht
      rw [(h.level _).last] at ht
      exact e (h.unique hj (mem_of_getLast? ht))
  · intro q e j hj
    rw [hprev, update_of_ne]
    rintro rfl
    exact hiQ q hj
  · have h1 : X.Perm (X.erase i ++ [i]) := (perm_cons_erase hi).trans (perm_append_singleton _ _).symm
    refine ((List.Perm.append_left (F ++ c.stopOrders) h1).append_right (Q p)).trans ?_
    simp only [append_assoc]
    exact List.Perm.append_left _ (List.Perm.append_left _ (List.Perm.append_left _ perm_append_comm))
  · intro j hj
    rcases mem_append.mp hj with hj | hj
    · exact h.price _ j hj
    · simp at hj
      rw [hj, hp]

theorem enqueue (h : Layout V c F Q X) (hi : i ∈ X) (hr : inRange V (c.price i)) :
    Layout V (c.enqueueAtLevel i) F (update Q (c.price i) (Q (c.price i) ++ [i])) (X.erase i) := by
  refine h.attach hi rfl hr ?_ ?_ ?_ ?_ (fun q e => Core.enqueueAtLevel_levels_of_ne c i e) ?_ ?_ rfl rfl rfl
  · funext j
    simp only [Core.next, Core.enqueueAtLevel_pool]
  · funext j
    simp only [Core.prev, Core.enqueueAtLevel_pool]
  · rw [Core.enqueueAtLevel_levels_self]
  · rw [Core.enqueueAtLevel_levels_self]
  · funext j
    simp only [Core.nextFree, Core.enqueueAtLevel_pool]
  · funext j
    simp only [Core.price, Core.enqueueAtLevel_pool]

theorem erase_split {a b : List Nat} (hl : l = a ++ i :: b) (hn : l.Nodup) : l.erase i = a ++ b := by
  subst hl
  have hia : i ∉ a := fun hm => (nodup_append.mp hn).2.2 i hm i mem_cons_self rfl
  rw [erase_append_right _ hia, erase_cons_head]

theorem splice (h : Layout V c F Q X) (hi : i ∈ Q p) :
    Layout V (c.splice p i) F (update Q p ((Q p).erase i)) (i :: X) := by
  obtain ⟨a, l, hsplit⟩ := append_of_mem hi
  have hd := h.level p
  rw [erase_split hsplit hd.nodup]
  rw [hsplit] at hd
  have hpm : ∀ j, c.prev i = some j → j ∈ Q p := fun j hj => by
    rw [hd.prev_eq] at hj
    rw [hsplit]
    exact mem_append_left _ (mem_of_getLast? hj)
  have hnm : ∀ j, c.next i = some j → j ∈ Q p := fun j hj => by
    rw [hd.next_eq] at hj
    rw [hsplit]
    exact mem_append_right _ (mem_cons_of_mem _ (mem_of_head? hj))
  refine h.relevel ?_ ?_ ?_ ?_ ?_ ?_ rfl rfl rfl ?_ ?_ ?_
  · rw [Core.splice_next, Core.splice_prev, Core.splice_levels_self]
    exact hd.remove
  · intro q e
    rw [Core.splice_levels_of_ne c i e]
    exact ⟨rfl, rfl⟩
  · intro q e j hj
    rw [Core.splice_next]
    exact setAt_of_ne fun hx => e (h.unique hj (hpm j hx))
  · intro q e j hj
    rw [Core.splice_prev]
    exact setAt_of_ne fun hx => e (h.unique hj (hnm j hx))
  · funext j
    simp only [Core.nextFree, Core.splice_pool]
  · funext j
    simp only [Core.price, Core.splice_pool]
  · rw [hsplit]
    have h1 : (a ++ i :: l).Perm (i :: (a ++ l)) := perm_middle
    refine (List.Perm.append_left _ h1).trans ?_
    have h2 : ((F ++ c.stopOrders ++ X) ++ i :: (a ++ l)).Perm (i :: ((F ++ c.stopOrders ++ X) ++ (a ++ l))) :=
      perm_middle
    refine h2.trans ?_
    have h3 : (F ++ c.stopOrders ++ i :: X).Perm (i :: (F ++ c.stopOrders ++ X)) := perm_middle
    exact (h3.append_right (a ++ l)).symm
  · intro j hj
    refine h.price p j ?_
    rw [hsplit]
    rcases mem_append.mp hj with hj | hj
    · exact mem_append_left _ hj
    · exact mem_append_right _ (mem_cons_of_mem _ hj)
  · exact fun _ _ => h.grid p i hi

theorem unlink (h : Layout V c F Q X) (hi : i ∈ Q p) :
    Layout V (c.unlinkFromLevel i) F (update Q p ((Q p).erase i)) (i :: X) := by
  have hp := h.price p i hi
  have hs := h.splice hi
  subst hp
  exact hs.setLevel rfl rfl

theorem requeue (h : Layout V c F Q X) (hi : i ∈ Q p) (ht : (c.levels p).tail ≠ some i) :
    Layout V (c.requeue p i) F (update Q p ((Q p).erase i ++ [i])) X := by
  have hp := h.price p i hi
  have hs := h.splice hi
  -- some other order is the last one, so the splice leaves the level non-empty
  have hsome : ((c.splice p i).levels p).tail.isSome := by
    have hlast := (hs.level p).last
    rw [update_self] at hlast
    rw [hlast]
    cases hq : (Q p).erase i with
    | cons x l => simp
    | nil =>
      exfalso
      apply ht
      rw [(h.level p).last, erase_eq_nil_iff.mp hq |>.resolve_left (by rintro e; rw [e] at hi; cases hi)]
      rfl
  have := hs.attach (d := c.requeue p i) mem_cons_self
    (by simpa [Core.price, Core.splice_pool] using hp) (h.grid p i hi) ?_ ?_ ?_ ?_ ?_ ?_ ?_ rfl rfl rfl
  · rw [update_self, update_idem, erase_cons_head] at this
    exact this
  · funext j
    simp only [Core.next, Core.requeue_pool]
  · funext j
    simp only [Core.prev, Core.requeue_pool]
  · rw [hsome, Core.requeue_levels_self]
    rfl
  · rw [Core.requeue_levels_self]
  · exact fun q e => Core.setLevel_levels_of_ne e
  · funext j
    simp only [Core.nextFree, Core.requeue_pool]
  · funext j
    simp only [Core.price, Core.requeue_pool]

theorem park (h : Layout V c F Q X) (hi : i ∈ X) : Layout V { c with stopOrders := c.stopOrders ++ [i] } F Q (X.erase i) := by
  refine h.reshuffle (fun _ _ _ => rfl) (fun _ _ _ => rfl) (fun _ _ _ => rfl) rfl h.free ?_ h.active
  have h1 : X.Perm ([i] ++ X.erase i) := perm_cons_erase hi
  refine (List.Perm.append_left _ h1).trans ?_
  simp

theorem unpark (h : Layout V c F Q X) {k : Nat} (hk : c.stopOrders[k]? = some i) :
    Layout V { c with stopOrders := swapErase c.stopOrders k } F Q (i :: X) := by
  refine h.reshuffle (fun _ _ _ => rfl) (fun _ _ _ => rfl) (fun _ _ _ => rfl) rfl h.free ?_ h.active
  refine ((List.Perm.append_left F (swapErase_perm hk)).append_right X).trans ?_
  have h1 : (F ++ i :: swapErase c.stopOrders k).Perm (i :: (F ++ swapErase c.stopOrders k)) := perm_middle
  exact (h1.append_right X).trans perm_middle.symm

end Layout

end

end HftLab.OrderBook
