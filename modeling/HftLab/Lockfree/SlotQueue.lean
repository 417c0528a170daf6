/-
  HftLab.Lockfree.SlotQueue — MPSCQueue and MPMCQueue (mpsc_queue.hpp, mpmc_queue.hpp) with their calls one at a time, against a
  bounded FIFO.

  The cells, their indices and `seqDiff` are those of Mpmc. `push` is the same in both. The loops run on fuel, and a CAS fails
  `spurious` times for no reason before it may succeed; a call returns when some fuel is enough.

  - `Sim`: from `tail_` to `head_` the cells hold the elements in order, each with the `seq` of a published position; from there up to
    one lap after `tail_`, each cell's `seq` is the position that it is free for.
  - `fifo_iff`: the queues are FIFOs, unless there is one cell only and a push comes while an element is held: the `seq` of the
    published position is then also that of the next free one.
-/

import HftLab.Lib.BoundedFifo
import HftLab.Lockfree.MpmcFifo
import Mathlib.Algebra.Order.BigOperators.Group.List
import Mathlib.Algebra.Order.Group.Nat

namespace HftLab.Lockfree

open Function

open Lib Lib.BoundedFifo

structure SlotQueue (T : Type) where
  cells : Nat → Cell T
  head : Nat := 0
  tail : Nat := 0

/-- Which of the two queues. -/
inductive SlotKind where
  | mpsc
  | mpmc
  deriving DecidableEq, Repr

namespace SlotQueue

open Mpmc (SIZE MASK cellIndex seqDiff)

variable {T : Type} (k : Nat) (q : SlotQueue T)

def seqAt (pos : Nat) : Nat := (q.cells (cellIndex k pos)).seq

def dataAt (pos : Nat) : T := (q.cells (cellIndex k pos)).data

def capacity : Nat := SIZE k

/-- After the constructor: each cell's `seq` is its index. -/
def start (data : Nat → T) : SlotQueue T where
  cells i := ⟨i, data i⟩

/-- What a push does once it has claimed `pos`. -/
def publish (pos : Nat) (item : T) : SlotQueue T :=
  { q with cells := Function.update q.cells (cellIndex k pos) ⟨uint64 (pos + 1), item⟩, head := uint64 (pos + 1) }

/-- What a pop does with the cell at `pos`, and to `tail_`. -/
def release (pos : Nat) : SlotQueue T :=
  { q with
    cells := Function.update q.cells (cellIndex k pos) { q.cells (cellIndex k pos) with seq := uint64 (pos + SIZE k) }
    tail := uint64 (pos + 1) }

def pushLoop (item : T) : Nat → Nat → Nat → Option (Bool × SlotQueue T)
  | 0, _, _ => none
  | fuel + 1, spurious, pos =>
    let diff := seqDiff (q.seqAt k pos) pos
    if diff = 0 then
      if spurious = 0 ∧ q.head = pos then some (true, q.publish k pos item) else pushLoop item fuel (spurious - 1) q.head
    else if diff < 0 then some (false, q)
    else pushLoop item fuel spurious q.head

def push (fuel spurious : Nat) (item : T) : Option (Bool × SlotQueue T) := q.pushLoop k item fuel spurious q.head

/-- `MPSCQueue::pop`. -/
def popMpsc : Option T × SlotQueue T :=
  let pos := q.tail
  if seqDiff (q.seqAt k pos) (uint64 (pos + 1)) ≠ 0 then (none, q) else (some (q.dataAt k pos), q.release k pos)

def popLoop : Nat → Nat → Nat → Option (Option T × SlotQueue T)
  | 0, _, _ => none
  | fuel + 1, spurious, pos =>
    let diff := seqDiff (q.seqAt k pos) (uint64 (pos + 1))
    if diff = 0 then
      if spurious = 0 ∧ q.tail = pos then some (some (q.dataAt k pos), q.release k pos) else popLoop fuel (spurious - 1) q.tail
    else if diff < 0 then some (none, q)
    else popLoop fuel spurious q.tail

/-- `MPMCQueue::pop`. -/
def popMpmc (fuel spurious : Nat) : Option (Option T × SlotQueue T) := q.popLoop k fuel spurious q.tail

def empty : Bool := q.seqAt k q.tail ≠ uint64 (q.tail + 1)

/-- One call, with the number of times that its CAS fails for no reason. -/
def exec (kind : SlotKind) (fuel : Nat) (c : Call T × Nat) : Option (Answer T × SlotQueue T) :=
  match c.1 with
  | .push item => (q.push k fuel c.2 item).map fun r => (.pushed r.1, r.2)
  | .pop =>
    match kind with
    | .mpsc => some (.popped (q.popMpsc k).1, (q.popMpsc k).2)
    | .mpmc => (q.popMpmc k fuel c.2).map fun r => (.popped r.1, r.2)
  | .empty => some (.isEmpty (q.empty k), q)

/-! ## Cells -/

variable {k q} {held : List T} {v : T} {p pos fuel spurious : Nat} {ρ τ : Type} {calls : List (Call T × Nat)}

theorem seqAt_publish (k : Nat) (q : SlotQueue T) (pos p : Nat) (item : T) :
    (q.publish k pos item).seqAt k p = if cellIndex k p = cellIndex k pos then uint64 (pos + 1) else q.seqAt k p := by
  unfold seqAt publish
  dsimp only
  split
  · rename_i h
    rw [h, update_self]
  · rename_i h
    rw [update_of_ne h]

theorem dataAt_publish (k : Nat) (q : SlotQueue T) (pos p : Nat) (item : T) :
    (q.publish k pos item).dataAt k p = if cellIndex k p = cellIndex k pos then item else q.dataAt k p := by
  unfold dataAt publish
  dsimp only
  split
  · rename_i h
    rw [h, update_self]
  · rename_i h
    rw [update_of_ne h]

theorem seqAt_release (k : Nat) (q : SlotQueue T) (pos p : Nat) :
    (q.release k pos).seqAt k p = if cellIndex k p = cellIndex k pos then uint64 (pos + SIZE k) else q.seqAt k p := by
  unfold seqAt release
  dsimp only
  split
  · rename_i h
    rw [h, update_self]
  · rename_i h
    rw [update_of_ne h]

theorem dataAt_release (k : Nat) (q : SlotQueue T) (pos p : Nat) : (q.release k pos).dataAt k p = q.dataAt k p := by
  unfold dataAt release
  dsimp only
  by_cases h : cellIndex k p = cellIndex k pos
  · rw [h, update_self]
  · rw [update_of_ne h]

/-! ## The loops -/

/-- A call that answers `r` if it returns, and returns when the fuel outlasts the failures for no reason. -/
structure Returns {ρ : Type} (fuel spurious : Nat) (o : Option ρ) (r : ρ) : Prop where
  only : ∀ x, o = some x → x = r
  enough : spurious < fuel → o = some r

theorem Returns.some (r : ρ) : Returns fuel spurious (some r) r where
  only _ h := (Option.some.inj h).symm
  enough _ := rfl

theorem Returns.none (r : ρ) : Returns 0 spurious none r where
  only _ h := by cases h
  enough h := absurd h (Nat.not_lt_zero spurious)

theorem Returns.mono {o : Option ρ} {r : ρ} (h : Returns fuel spurious o r) : Returns (fuel + 1) (spurious + 1) o r where
  only := h.only
  enough hlt := h.enough (Nat.lt_of_succ_lt_succ hlt)

theorem Returns.bind_none {o : Option ρ} {r : ρ} {f : ρ → Option τ} (h : Returns fuel spurious o r) (hf : f r = .none) :
    o.bind f = .none := by
  cases o with
  | none => rfl
  | some x =>
    rw [Option.bind_some, h.only x rfl, hf]

theorem Returns.map {o : Option ρ} {r : ρ} (h : Returns fuel spurious o r) (f : ρ → τ) : Returns fuel spurious (o.map f) (f r) where
  only x hx := by
    obtain ⟨y, hy, rfl⟩ := Option.map_eq_some_iff.mp hx
    rw [h.only y hy]
  enough hlt := by
    rw [h.enough hlt]
    rfl

/-- A push that finds its cell free claims it. -/
theorem pushLoop_free (hseq : q.seqAt k q.head = q.head) (item : T) (fuel spurious : Nat) :
    Returns fuel spurious (q.pushLoop k item fuel spurious q.head) (true, q.publish k q.head item) := by
  have hdiff : seqDiff (q.seqAt k q.head) q.head = 0 := by
    rw [hseq]
    unfold seqDiff
    rw [Int.sub_self]
    rfl
  induction fuel generalizing spurious with
  | zero => exact .none _
  | succ fuel ih =>
    rw [pushLoop, if_pos hdiff]
    cases spurious with
    | zero =>
      rw [if_pos ⟨rfl, rfl⟩]
      exact .some _
    | succ spurious =>
      rw [if_neg (by omega)]
      exact (ih spurious).mono

theorem pushLoop_full (hneg : seqDiff (q.seqAt k q.head) q.head < 0) (item : T) (fuel spurious : Nat) :
    Returns fuel spurious (q.pushLoop k item fuel spurious q.head) (false, q) := by
  cases fuel with
  | zero => exact .none _
  | succ fuel =>
    rw [pushLoop, if_neg (by omega), if_pos hneg]
    exact .some _

theorem popLoop_ready (hdiff : seqDiff (q.seqAt k q.tail) (uint64 (q.tail + 1)) = 0) (fuel spurious : Nat) :
    Returns fuel spurious (q.popLoop k fuel spurious q.tail) (some (q.dataAt k q.tail), q.release k q.tail) := by
  induction fuel generalizing spurious with
  | zero => exact .none _
  | succ fuel ih =>
    rw [popLoop, if_pos hdiff]
    cases spurious with
    | zero =>
      rw [if_pos ⟨rfl, rfl⟩]
      exact .some _
    | succ spurious =>
      rw [if_neg (by omega)]
      exact (ih spurious).mono

theorem popLoop_empty (hneg : seqDiff (q.seqAt k q.tail) (uint64 (q.tail + 1)) < 0) (fuel spurious : Nat) :
    Returns fuel spurious (q.popLoop k fuel spurious q.tail) (none, q) := by
  cases fuel with
  | zero => exact .none _
  | succ fuel =>
    rw [popLoop, if_neg (by omega), if_pos hneg]
    exact .some _

/-- A pop that finds a later `seq` than that of its position loads `tail_` again, for ever. -/
theorem popLoop_stuck (hpos : 0 < seqDiff (q.seqAt k q.tail) (uint64 (q.tail + 1))) (fuel spurious : Nat) :
    q.popLoop k fuel spurious q.tail = none := by
  induction fuel with
  | zero => rfl
  | succ fuel ih => rw [popLoop, if_neg (by omega), if_neg (by omega), ih]

/-! ## The list that is held -/

/-- Along the ring the queue holds `held`. -/
structure Sim (k : Nat) (q : SlotQueue T) (held : List T) : Prop where
  head : q.head = q.tail + held.length
  room : held.length ≤ SIZE k
  ready : ∀ i v, held[i]? = some v → q.seqAt k (q.tail + i) = q.tail + i + 1 ∧ q.dataAt k (q.tail + i) = v
  free : ∀ p, q.head ≤ p → p < q.tail + SIZE k → q.seqAt k p = p

theorem SIZE_pos (k : Nat) : 0 < SIZE k := Nat.two_pow_pos k

theorem sim_start (k : Nat) (data : Nat → T) : (start data).Sim k [] where
  head := rfl
  room := Nat.zero_le _
  ready _ _ h := by cases h
  free p _ hp := by
    have hp : p < SIZE k := by simpa [start] using hp
    show cellIndex k p = p
    rw [Mpmc.cellIndex_eq, Nat.mod_eq_of_lt hp]

theorem Sim.publish (h : q.Sim k held) (hroom : held.length < SIZE k) (hlim : q.head < 9223372036854775808) (item : T) :
    (q.publish k q.head item).Sim k (held ++ [item]) := by
  have hnext : uint64 (q.head + 1) = q.head + 1 := uint64_eq (by omega)
  have hhead := h.head
  constructor
  · show uint64 (q.head + 1) = q.tail + (held ++ [item]).length
    rw [hnext, List.length_append, List.length_singleton]
    omega
  · rw [List.length_append, List.length_singleton]
    exact hroom
  · intro i v hi
    show (q.publish k q.head item).seqAt k (q.tail + i) = q.tail + i + 1 ∧ (q.publish k q.head item).dataAt k (q.tail + i) = v
    rw [seqAt_publish, dataAt_publish, hnext]
    rcases Nat.lt_trichotomy i held.length with hlt | heq | hgt
    · have hne := Mpmc.cellIndex_ne (k := k) (p := q.tail + i) (q := q.head) (by omega) (by omega) (by omega)
      rw [if_neg hne, if_neg hne]
      rw [List.getElem?_append_left hlt] at hi
      exact h.ready i v hi
    · have hat : q.tail + i = q.head := by omega
      rw [heq, List.getElem?_concat_length] at hi
      rw [hat, if_pos rfl, if_pos rfl]
      exact ⟨rfl, Option.some.inj hi⟩
    · rw [List.getElem?_eq_none (by rw [List.length_append, List.length_singleton]; omega)] at hi
      cases hi
  · intro p hp hp'
    have hp : uint64 (q.head + 1) ≤ p := hp
    have hp' : p < q.tail + SIZE k := hp'
    rw [hnext] at hp
    rw [seqAt_publish, if_neg (Mpmc.cellIndex_ne (by omega) (by omega) (by omega))]
    exact h.free p (by omega) hp'

theorem Sim.release (hk : k < 64) (h : q.Sim k (v :: held)) (hlim : q.tail < 9223372036854775807) :
    (q.release k q.tail).Sim k held := by
  have hsize := Mpmc.SIZE_le hk
  have hnext : uint64 (q.tail + 1) = q.tail + 1 := uint64_eq (by omega)
  have hlap : uint64 (q.tail + SIZE k) = q.tail + SIZE k := uint64_eq (by omega)
  have hhead := h.head
  have hroom := h.room
  rw [List.length_cons] at hhead hroom
  constructor
  · show q.head = uint64 (q.tail + 1) + held.length
    omega
  · omega
  · intro i w hi
    have hlt := (List.getElem?_eq_some_iff.mp hi).1
    show (q.release k q.tail).seqAt k (uint64 (q.tail + 1) + i) = uint64 (q.tail + 1) + i + 1 ∧
      (q.release k q.tail).dataAt k (uint64 (q.tail + 1) + i) = w
    have hshift : q.tail + 1 + i = q.tail + (i + 1) := by omega
    rw [hnext, dataAt_release, seqAt_release, if_neg (Mpmc.cellIndex_ne (by omega) (by omega) (by omega)), hshift]
    exact h.ready (i + 1) w hi
  · intro p hp hp'
    have hp : q.head ≤ p := hp
    have hp' : p < uint64 (q.tail + 1) + SIZE k := hp'
    rw [hnext] at hp'
    rw [seqAt_release]
    rcases Nat.lt_or_ge p (q.tail + SIZE k) with hlt | hge
    · rw [if_neg (Mpmc.cellIndex_ne (by omega) (by omega) (by omega))]
      exact h.free p hp hlt
    · have heq : p = q.tail + SIZE k := by omega
      rw [heq, Mpmc.cellIndex_add, if_pos rfl, hlap]

/-- The cell where the next push looks. -/
theorem Sim.seqAt_head (h : q.Sim k held) : q.seqAt k q.head = if held.length < SIZE k then q.head else q.tail + 1 := by
  have hhead := h.head
  have hroom := h.room
  have hsize := SIZE_pos k
  by_cases hlt : held.length < SIZE k
  · rw [if_pos hlt]
    exact h.free q.head (Nat.le_refl _) (by omega)
  · rw [if_neg hlt]
    obtain ⟨v, hv⟩ : ∃ v, held[0]? = some v := ⟨_, List.getElem?_eq_getElem (by omega)⟩
    have hlap : q.head = q.tail + SIZE k := by omega
    have hcell : q.seqAt k q.head = q.seqAt k q.tail := by
      unfold seqAt
      rw [hlap, Mpmc.cellIndex_add]
    rw [hcell]
    exact (h.ready 0 v hv).1

/-- The cell where the next pop looks. -/
theorem Sim.seqAt_tail (h : q.Sim k held) : q.seqAt k q.tail = if held = [] then q.tail else q.tail + 1 := by
  have hhead := h.head
  have hsize := SIZE_pos k
  cases held with
  | nil =>
    rw [if_pos rfl]
    exact h.free q.tail (Nat.le_of_eq hhead) (by omega)
  | cons v held =>
    rw [if_neg (List.cons_ne_nil v held)]
    exact (h.ready 0 v rfl).1

/-! ## Calls -/

/-- There are two cells at least, or the call is no push, or nothing is held. -/
def Served (k : Nat) (held : List T) (c : Call T) : Prop := 2 ≤ SIZE k ∨ ∀ item, c = .push item → held = []

theorem diff_tail (h : q.Sim k held) (hlim : q.tail < 9223372036854775807) :
    seqDiff (q.seqAt k q.tail) (uint64 (q.tail + 1)) = if held = [] then -1 else 0 := by
  rw [uint64_eq (by omega), h.seqAt_tail]
  by_cases hnil : held = []
  · rw [if_pos hnil, if_pos hnil, Mpmc.seqDiff_eq (by omega) (by omega)]
    omega
  · rw [if_neg hnil, if_neg hnil, Mpmc.seqDiff_eq (by omega) (by omega)]
    omega

theorem pop_returns (kind : SlotKind) (hk : k < 64) (h : q.Sim k held) (hlim : q.tail < 9223372036854775807) (fuel spurious : Nat) :
    ∃ q', q'.Sim k held.tail ∧ q'.head = q.head ∧
      Returns fuel spurious (q.exec k kind fuel (.pop, spurious)) (.popped held.head?, q') := by
  have hdiff := diff_tail h hlim
  cases held with
  | nil =>
    rw [if_pos rfl] at hdiff
    refine ⟨q, h, rfl, ?_⟩
    cases kind with
    | mpsc =>
      have hpop : q.popMpsc k = (none, q) := by
        unfold popMpsc
        dsimp only
        rw [hdiff, if_pos (by decide)]
      unfold exec
      rw [hpop]
      exact .some _
    | mpmc => exact (popLoop_empty (by omega) fuel spurious).map fun r => (Answer.popped r.1, r.2)
  | cons v held =>
    rw [if_neg (List.cons_ne_nil v held)] at hdiff
    have hdata : q.dataAt k q.tail = v := (h.ready 0 v rfl).2
    refine ⟨q.release k q.tail, h.release hk hlim, rfl, ?_⟩
    cases kind with
    | mpsc =>
      have hpop : q.popMpsc k = (some v, q.release k q.tail) := by
        unfold popMpsc
        dsimp only
        rw [hdiff, if_neg (by decide), hdata]
      unfold exec
      rw [hpop]
      exact .some _
    | mpmc =>
      have hloop := popLoop_ready hdiff fuel spurious
      rw [hdata] at hloop
      exact hloop.map fun r => (Answer.popped r.1, r.2)

theorem push_returns (kind : SlotKind) (h : q.Sim k held) (hlim : q.head < 9223372036854775807) {item : T}
    (hserved : Served k held (.push item)) (fuel spurious : Nat) :
    ∃ q', q'.Sim k (next (SIZE k) held (.push item)) ∧ q'.head ≤ q.head + 1 ∧
      Returns fuel spurious (q.exec k kind fuel (.push item, spurious)) (.pushed (held.length < SIZE k), q') := by
  have hhead := h.head
  have hseq := h.seqAt_head
  unfold next
  dsimp only
  by_cases hroom : held.length < SIZE k
  · -- the cell is free
    have hnext : uint64 (q.head + 1) = q.head + 1 := uint64_eq (by omega)
    rw [if_pos hroom] at hseq
    rw [if_pos hroom, decide_eq_true hroom]
    refine ⟨q.publish k q.head item, h.publish hroom (by omega) item, Nat.le_of_eq hnext, ?_⟩
    exact (pushLoop_free hseq item fuel spurious).map fun r => (Answer.pushed r.1, r.2)
  · -- the cell still holds the oldest element
    have hmax := h.room
    have hsize := SIZE_pos k
    have htwo : 2 ≤ SIZE k := by
      rcases hserved with htwo | hnil
      · exact htwo
      · rw [hnil item rfl, List.length_nil] at hroom
        omega
    rw [if_neg hroom] at hseq
    have hneg : seqDiff (q.seqAt k q.head) q.head < 0 := by
      rw [hseq, Mpmc.seqDiff_eq (by omega) (by omega)]
      omega
    rw [if_neg hroom, decide_eq_false hroom]
    refine ⟨q, h, Nat.le_succ _, ?_⟩
    exact (pushLoop_full hneg item fuel spurious).map fun r => (Answer.pushed r.1, r.2)

theorem empty_eq (h : q.Sim k held) (hlim : q.tail < 9223372036854775807) : q.empty k = held.isEmpty := by
  unfold empty
  rw [h.seqAt_tail, uint64_eq (by omega)]
  cases held with
  | nil => simp
  | cons v held => simp

/-- A served call answers as the list does. -/
theorem exec_served (kind : SlotKind) (hk : k < 64) (h : q.Sim k held) (hlim : q.head < 9223372036854775807) (c : Call T × Nat)
    (hserved : Served k held c.1) (fuel : Nat) :
    ∃ q', q'.Sim k (next (SIZE k) held c.1) ∧ q'.head ≤ q.head + 1 ∧
      Returns fuel c.2 (q.exec k kind fuel c) (answer (SIZE k) held c.1, q') := by
  obtain ⟨c, spurious⟩ := c
  have hhead := h.head
  cases c with
  | push item => exact push_returns kind h hlim hserved fuel spurious
  | pop =>
    obtain ⟨q', hsim, hq', hreturns⟩ := pop_returns kind hk h (by omega) fuel spurious
    exact ⟨q', hsim, by omega, hreturns⟩
  | empty =>
    refine ⟨q, h, Nat.le_succ _, ?_⟩
    unfold exec answer
    rw [empty_eq h (by omega)]
    exact .some _

/-- With one cell, a push goes through while an element is held. -/
theorem exec_missed (kind : SlotKind) (h : q.Sim k held) (c : Call T × Nat) (hmissed : ¬Served k held c.1) {x : Answer T × SlotQueue T}
    (hx : q.exec k kind fuel c = some x) : x.1 ≠ answer (SIZE k) held c.1 := by
  obtain ⟨c, spurious⟩ := c
  obtain ⟨hsize, hpush⟩ := not_or.mp hmissed
  obtain ⟨item, hitem⟩ := not_forall.mp hpush
  obtain ⟨hc, hheld⟩ := Classical.not_imp.mp hitem
  have hc : c = .push item := hc
  subst hc
  have hpos := SIZE_pos k
  have hroom := h.room
  have hlen := List.length_pos_iff.mpr hheld
  have hfull : ¬held.length < SIZE k := by omega
  have hseq : q.seqAt k q.head = q.head := by
    have hhead := h.head
    rw [h.seqAt_head, if_neg hfull]
    omega
  have hreturns := (pushLoop_free hseq item fuel spurious).map fun r => (Answer.pushed (T := T) r.1, r.2)
  rw [hreturns.only x hx, answer, decide_eq_false hfull]
  simp

/-! ## Runs -/

def run (k : Nat) (kind : SlotKind) (fuel : Nat) : SlotQueue T → List (Call T × Nat) → Option (List (Answer T)) :=
  BoundedFifo.run fun q => q.exec k kind fuel

/-- The queue holds `held` and the calls to come keep the counters below 2^63. -/
structure Ready (k : Nat) (q : SlotQueue T) (held : List T) (calls : List (Call T × Nat)) : Prop where
  sim : q.Sim k held
  limit : q.head + calls.length < 9223372036854775808

theorem Ready.served (kind : SlotKind) (hk : k < 64) {c : Call T × Nat} (h : Ready k q held (c :: calls))
    (hserved : Served k held c.1) (fuel : Nat) :
    ∃ q', Ready k q' (next (SIZE k) held c.1) calls ∧ Returns fuel c.2 (q.exec k kind fuel c) (answer (SIZE k) held c.1, q') := by
  have hlim := h.limit
  rw [List.length_cons] at hlim
  obtain ⟨q', hsim, hhead, hreturns⟩ := exec_served kind hk h.sim (by omega) c hserved fuel
  exact ⟨q', ⟨hsim, by omega⟩, hreturns⟩

theorem Ready.start (k : Nat) (data : Nat → T) (hcalls : calls.length < 2 ^ 63) :
    Ready k (start data) [] calls := ⟨sim_start k data, by show 0 + calls.length < _; omega⟩

theorem Ready.eachStep_served (kind : SlotKind) (hk : k < 64) (h : Ready k q held calls)
    (hrun : q.run k kind fuel calls = some (answers (capacity k) held (calls.map Prod.fst))) :
    EachStep (next (capacity k)) (Served k) held (calls.map Prod.fst) := by
  refine eachStep_of_run ?_ ?_ h hrun
  · intro q held c calls x hR hserved hx
    obtain ⟨q', hnext, hreturns⟩ := hR.served kind hk hserved fuel
    rw [hreturns.only x hx]
    exact hnext
  · intro q held c calls x hR hmissed hx
    exact exec_missed kind hR.sim c hmissed hx

/-- Both queues, on every run of fewer than 2^63 calls: they return and answer as a FIFO with `SIZE` places just when there are two
cells at least or every push finds nothing held. -/
theorem fifo_iff (kind : SlotKind) {k : Nat} (hk : k < 64) (data : Nat → T) (calls : List (Call T × Nat)) (hcalls : calls.length < 2 ^ 63) :
    (∃ fuel, (start data).run k kind fuel calls = some (answers (capacity k) [] (calls.map Prod.fst))) ↔
      EachStep (next (capacity k)) (Served k) [] (calls.map Prod.fst) := by
  have hready := Ready.start k data hcalls
  constructor
  · intro ⟨fuel, hrun⟩
    exact hready.eachStep_served kind hk hrun
  · intro hserved
    obtain ⟨fuel, hfuel⟩ : ∃ fuel, ∀ c ∈ calls, c.2 < fuel := by
      refine ⟨(calls.map Prod.snd).sum + 1, fun c hc => Nat.lt_succ_of_le ?_⟩
      exact List.le_sum_of_mem (List.mem_map_of_mem hc)
    refine ⟨fuel, run_answers (R := fun q held cs => Ready k q held cs ∧ ∀ c ∈ cs, c.2 < fuel) ?_ ⟨hready, hfuel⟩ hserved⟩
    intro q held c cs hR hc
    obtain ⟨q', hnext, hreturns⟩ := hR.1.served kind hk hc fuel
    refine ⟨_, hreturns.enough (hR.2 c (List.mem_cons_self ..)), rfl, hnext, ?_⟩
    exact fun c' hc' => hR.2 c' (List.mem_cons_of_mem _ hc')

/-- Two cells, a CAS that fails twice, a push to the full queue. -/
theorem fifo_iff_sample : ∃ fuel, (start fun _ => 0).run 1 .mpmc fuel [(.push 7, 2), (.push 8, 0), (.push 9, 1), (.pop, 1), (.empty, 0)] =
    some [.pushed true, .pushed true, .pushed false, .popped (some 7), .isEmpty false] := by
  have hserved : EachStep (next (capacity 1)) (Served 1) [] [.push 7, .push 8, .push 9, .pop, .empty] := by
    have htwo : 2 ≤ SIZE 1 := by decide
    exact ⟨.inl htwo, .inl htwo, .inl htwo, .inl htwo, .inl htwo, trivial⟩
  exact (fifo_iff .mpmc (by decide : 1 < 64) (fun _ => 0) [(.push 7, 2), (.push 8, 0), (.push 9, 1), (.pop, 1), (.empty, 0)]
    (by decide)).mpr hserved

theorem not_served_second (v w : T) : ¬EachStep (next (capacity 0)) (Served 0) [] [.push v, .push w] := by
  intro h
  obtain ⟨-, hsecond, -⟩ := h
  rcases hsecond with htwo | hnil
  · exact absurd htwo (by decide)
  · cases hnil w rfl

/-- With one cell both queues take a second element over the first. The single consumer then finds nothing, and a pop of the other
queue never returns. -/
theorem one_cell_overwritten :
    (∀ kind, ¬∃ fuel, (start fun _ => 0).run 0 kind fuel [(.push 7, 0), (.push 8, 0)] =
      some (answers (capacity 0) [] [.push 7, .push 8])) ∧
    (start fun _ => 0).run 0 .mpsc 1 [(.push 7, 0), (.push 8, 0), (.pop, 0)] = some [.pushed true, .pushed true, .popped none] ∧
    ∀ fuel, (start fun _ => 0).run 0 .mpmc fuel [(.push 7, 0), (.push 8, 0), (.pop, 0)] = none := by
  refine ⟨?_, by decide +kernel, ?_⟩
  · intro kind ⟨fuel, h⟩
    have hready : Ready 0 (start fun _ => 0) [] [(.push 7, 0), (.push 8, 0)] := .start 0 _ (by decide)
    exact not_served_second 7 8 (hready.eachStep_served kind (by decide) h)
  · intro fuel
    have hfirst := pushLoop_free (k := 0) (q := start fun _ => 0) (by decide) 7 fuel 0
    have hsecond := pushLoop_free (k := 0) (q := (start fun _ => 0).publish 0 0 7) (by decide) 8 fuel 0
    have hstuck := popLoop_stuck (k := 0) (q := ((start fun _ => 0).publish 0 0 7).publish 0 1 8) (by decide) fuel 0
    refine (hfirst.map _).bind_none ?_
    refine Option.map_eq_none_iff.mpr ((hsecond.map _).bind_none ?_)
    have hpop : (((start fun _ => 0).publish 0 0 7).publish 0 1 8).exec 0 .mpmc fuel (.pop, 0) = none :=
      Option.map_eq_none_iff.mpr hstuck
    refine Option.map_eq_none_iff.mpr ?_
    refine Option.bind_eq_none_iff.mpr fun x hx => ?_
    cases hpop.symm.trans hx

end SlotQueue

end HftLab.Lockfree
