/-
  HftLab.Lockfree.Spsc — the queue of one producer and one consumer (spsc_queue.hpp), step by step.

  A thread loads its own index, loads the other's, copies the slot, stores its own index; each of these is one step, and
  memory is sequentially consistent. `push` and `pop` say what the next step of a call does: the call goes on
  (`Sum.inl`) or returns (`Sum.inr`). `pushed` and `popped` are ghost state: the items whose push returned true, and
  those that pop returned.

  - `Inv`: the slots from `tail_` on hold the items that were pushed and not popped, in order, and there are never as many
    as slots.
  - `Inv.push`, `Inv.pop`: a step of either side keeps it, whatever the other side is doing.
  - `Inv.refused`: a push returns false only if the queue was full when it loaded `tail_`.
-/

import HftLab.Lib.Ring

namespace HftLab.Lockfree

open Lib List

structure Spsc (T : Type) where
  buffer : Nat → T
  head : Nat := 0
  tail : Nat := 0
  pushed : List T := []
  popped : List T := []

/-- Where the producer stands in `push`. -/
inductive PushPc (T : Type) where
  | loadHead (item : T)
  | loadTail (item : T) (h next : Nat)
  | copy (item : T) (h next : Nat)
  | store (item : T) (next : Nat)
  deriving DecidableEq

def PushPc.item {T : Type} : PushPc T → T
  | .loadHead item | .loadTail item _ _ | .copy item _ _ | .store item _ => item

/-- Where the consumer stands in `pop`. -/
inductive PopPc (T : Type) where
  | loadTail
  | loadHead (t : Nat)
  | copy (t : Nat)
  | store (t : Nat) (out : T)
  deriving DecidableEq

namespace Spsc

variable {T : Type} (k : Nat) (q : Spsc T)

/-- The number of slots; `k` is its logarithm. -/
def SIZE : Nat := 2 ^ k

/-- `(i + 1) & (SIZE - 1)`. -/
def succ (i : Nat) : Nat := (i + 1) &&& (SIZE k - 1)

def push : PushPc T → Spsc T × (PushPc T ⊕ Bool)
  | .loadHead item => (q, .inl (.loadTail item q.head (succ k q.head)))
  | .loadTail item h next => if next = q.tail then (q, .inr false) else (q, .inl (.copy item h next))
  | .copy item h next => ({ q with buffer := Function.update q.buffer h item }, .inl (.store item next))
  | .store item next => ({ q with head := next, pushed := q.pushed ++ [item] }, .inr true)

def pop : PopPc T → Spsc T × (PopPc T ⊕ Option T)
  | .loadTail => (q, .inl (.loadHead q.tail))
  | .loadHead t => if t = q.head then (q, .inr none) else (q, .inl (.copy t))
  | .copy t => (q, .inl (.store t (q.buffer t)))
  | .store t out => ({ q with tail := succ k t, popped := q.popped ++ [out] }, .inr (some out))

/-- The items that were pushed and not popped. -/
def content : List T := q.pushed.drop q.popped.length

/-- What the producer's local variables say. -/
def PushOk : Option (PushPc T) → Prop
  | some (.loadTail _ h next) => h = q.head ∧ next = succ k q.head
  | some (.copy _ h next) => h = q.head ∧ next = succ k q.head ∧ q.content.length + 1 < SIZE k
  | some (.store item next) => next = succ k q.head ∧ q.content.length + 1 < SIZE k ∧ q.buffer q.head = item
  | _ => True

/-- What the consumer's local variables say. -/
def PopOk : Option (PopPc T) → Prop
  | some (.loadHead t) => t = q.tail
  | some (.copy t) => t = q.tail ∧ q.content ≠ []
  | some (.store t out) => t = q.tail ∧ q.content.head? = some out
  | _ => True

structure Inv (k : Nat) (q : Spsc T) (p : Option (PushPc T)) (c : Option (PopPc T)) : Prop where
  order : q.pushed = q.popped ++ q.content
  room : q.content.length < SIZE k
  tail_lt : q.tail < SIZE k
  head_eq : q.head = (q.tail + q.content.length) % SIZE k
  holds : RingHolds q.buffer (SIZE k) q.tail q.content
  producer : q.PushOk k p
  consumer : q.PopOk c

/-- Where a call stands after a step. -/
def resume {α β : Type} : α ⊕ β → Option α
  | .inl pc => some pc
  | .inr _ => none

end Spsc

namespace Spsc

variable {T : Type} {k : Nat} {q q' : Spsc T} {p : Option (PushPc T)} {c : Option (PopPc T)}
    {i next : Nat} {item : T} {pc : PushPc T}

/-! ## Indices -/

theorem succ_eq (k i : Nat) : succ k i = (i + 1) % SIZE k := Nat.and_two_pow_sub_one_eq_mod (i + 1) k

theorem SIZE_pos (k : Nat) : 0 < SIZE k := Nat.two_pow_pos k

theorem Inv.next_eq (h : q.Inv k p c) : succ k q.head = (q.tail + (q.content.length + 1)) % SIZE k := by
  rw [succ_eq, h.head_eq, Nat.mod_add_mod, Nat.add_assoc]

/-- The next position of the producer is the consumer's exactly in a queue that is full. -/
theorem Inv.full_iff (h : q.Inv k p c) : succ k q.head = q.tail ↔ q.content.length + 1 = SIZE k := by
  have hroom := h.room
  have htail : q.tail % SIZE k = q.tail := Nat.mod_eq_of_lt h.tail_lt
  rw [h.next_eq]
  constructor
  · intro he
    by_contra hne
    have hlt : q.content.length + 1 < SIZE k := by omega
    have heq : q.tail + (q.content.length + 1) = q.tail := ring_inj (by rw [he, htail]) (by omega) (by omega)
    omega
  · intro he
    rw [he, Nat.add_mod_right, htail]

theorem Inv.empty_iff (h : q.Inv k p c) : q.tail = q.head ↔ q.content = [] := by
  have hroom := h.room
  have htail : q.tail % SIZE k = q.tail := Nat.mod_eq_of_lt h.tail_lt
  rw [h.head_eq]
  constructor
  · intro he
    have heq : q.tail = q.tail + q.content.length := ring_inj (by rw [htail, ← he]) (by omega) (by omega)
    exact eq_nil_of_length_eq_zero (by omega)
  · intro he
    rw [he, length_nil, Nat.add_zero, htail]

/-- The producer's slot is none of those that hold an item. -/
theorem Inv.free_slot (h : q.Inv k p c) (hi : i < q.content.length) : (q.tail + i) % SIZE k ≠ q.head := by
  have hroom := h.room
  rw [h.head_eq]
  intro he
  have := ring_inj he (by omega) (by omega)
  omega

/-! ## Steps -/

theorem start_inv (buffer : Nat → T) : ({ buffer } : Spsc T).Inv k none none where
  order := rfl
  room := SIZE_pos k
  tail_lt := SIZE_pos k
  head_eq := (Nat.zero_mod _).symm
  holds := .nil _ _ _
  producer := trivial
  consumer := trivial

theorem Inv.enterPush (h : q.Inv k none c) (item : T) : q.Inv k (some (.loadHead item)) c := { h with producer := trivial }

theorem Inv.enterPop (h : q.Inv k p none) : q.Inv k p (some .loadTail) := { h with consumer := trivial }

theorem Inv.copyIn (h : q.Inv k (some (.copy item i next)) c) :
    ({ q with buffer := Function.update q.buffer i item } : Spsc T).Inv k (some (.store item next)) c := by
  obtain ⟨rfl, hnext, hroom⟩ := h.producer
  exact
    { h with
      holds := h.holds.update item fun j hj => h.free_slot hj
      producer := ⟨hnext, hroom, Function.update_self _ _ _⟩ }

theorem content_push (head : Nat) (item : T) (h : q.pushed = q.popped ++ q.content) :
    ({ q with head, pushed := q.pushed ++ [item] } : Spsc T).content = q.content ++ [item] := by
  have hlen := congrArg List.length h
  rw [length_append] at hlen
  show (q.pushed ++ [item]).drop q.popped.length = q.pushed.drop q.popped.length ++ [item]
  exact drop_append_of_le_length (by omega)

theorem Inv.publish (h : q.Inv k (some (.store item next)) c) :
    ({ q with head := next, pushed := q.pushed ++ [item] } : Spsc T).Inv k none c := by
  obtain ⟨rfl, hroom, hitem⟩ := h.producer
  have hcontent := content_push (succ k q.head) item h.order
  exact
    { order := by rw [hcontent, ← append_assoc, ← h.order]
      room := by rw [hcontent, length_append]; exact hroom
      tail_lt := h.tail_lt
      head_eq := by rw [hcontent, length_append]; exact h.next_eq
      holds := by
        rw [hcontent]
        refine ringHolds_append.mpr ⟨h.holds, ?_⟩
        intro i x hx
        obtain ⟨rfl, rfl⟩ : i = 0 ∧ item = x := by
          rcases i with _ | i
          · exact ⟨rfl, by simpa using hx⟩
          · simp at hx
        rw [Nat.add_zero, Nat.mod_mod, ← h.head_eq]
        exact hitem
      producer := trivial
      consumer := by
        have hcon := h.consumer
        cases c with
        | none => trivial
        | some pc =>
          cases pc with
          | loadTail => trivial
          | loadHead t => exact hcon
          | copy t => exact ⟨hcon.1, by rw [hcontent]; simp⟩
          | store t out =>
            refine ⟨hcon.1, ?_⟩
            rw [hcontent, List.head?_append, hcon.2]
            rfl }

theorem Inv.release {t : Nat} {out : T} (h : q.Inv k p (some (.store t out))) :
    ({ q with tail := succ k t, popped := q.popped ++ [out] } : Spsc T).Inv k p none := by
  obtain ⟨rfl, hout⟩ := h.consumer
  obtain ⟨rest, hrest⟩ : ∃ rest, q.content = out :: rest := by
    cases hc : q.content with
    | nil =>
      rw [hc] at hout
      cases hout
    | cons x rest =>
      rw [hc] at hout
      cases hout
      exact ⟨rest, rfl⟩
  have hcontent : ({ q with tail := succ k q.tail, popped := q.popped ++ [out] } : Spsc T).content = rest := by
    show q.pushed.drop (q.popped ++ [out]).length = rest
    rw [h.order, hrest, length_append, ← drop_drop, drop_left]
    rfl
  have hroom := h.room
  have hhead := h.head_eq
  have hholds := h.holds
  have hlt : succ k q.tail < SIZE k := by
    rw [succ_eq]
    exact Nat.mod_lt _ (SIZE_pos k)
  rw [hrest] at hroom hhead hholds
  rw [length_cons] at hroom hhead
  exact
    { order := by rw [hcontent, append_assoc, h.order, hrest]; rfl
      room := by rw [hcontent]; omega
      tail_lt := hlt
      head_eq := by
        rw [hcontent, succ_eq, Nat.mod_add_mod]
        rw [hhead, Nat.add_assoc, Nat.add_comm 1]
      holds := by
        rw [hcontent, succ_eq]
        exact (ringHolds_append (l := [out])).mp hholds |>.2
      producer := by
        have hpro := h.producer
        have hless : rest.length ≤ q.content.length := by rw [hrest]; exact Nat.le_succ _
        cases p with
        | none => trivial
        | some pc =>
          cases pc with
          | loadHead item => trivial
          | loadTail item i next => exact hpro
          | copy item i next => exact ⟨hpro.1, hpro.2.1, by rw [hcontent]; have := hpro.2.2; omega⟩
          | store item next => exact ⟨hpro.1, by rw [hcontent]; have := hpro.2.1; omega, hpro.2.2⟩
      consumer := trivial }

/-- A step of the producer. -/
theorem Inv.push (h : q.Inv k (some pc) c) : (q.push k pc).1.Inv k (resume (q.push k pc).2) c := by
  cases pc with
  | loadHead item => exact { h with producer := ⟨rfl, rfl⟩ }
  | loadTail item i next =>
    obtain ⟨rfl, rfl⟩ := h.producer
    simp only [Spsc.push]
    split
    · exact { h with producer := trivial }
    · rename_i hne
      have hroom := h.room
      have hfull : q.content.length + 1 ≠ SIZE k := mt h.full_iff.mpr hne
      have hlt : q.content.length + 1 < SIZE k := by omega
      exact { h with producer := ⟨rfl, rfl, hlt⟩ }
  | copy item i next => exact h.copyIn
  | store item next => exact h.publish

/-- A step of the consumer. -/
theorem Inv.pop {pc : PopPc T} (h : q.Inv k p (some pc)) : (q.pop k pc).1.Inv k p (resume (q.pop k pc).2) := by
  cases pc with
  | loadTail => exact { h with consumer := rfl }
  | loadHead t =>
    obtain rfl : t = q.tail := h.consumer
    simp only [Spsc.pop]
    split
    · exact { h with consumer := trivial }
    · rename_i hne
      exact { h with consumer := ⟨rfl, mt h.empty_iff.mpr hne⟩ }
  | copy t =>
    obtain ⟨rfl, hne⟩ := h.consumer
    refine { h with consumer := ⟨rfl, ?_⟩ }
    obtain ⟨x, rest, hc⟩ := exists_cons_of_ne_nil hne
    have hx := h.holds 0 x (by rw [hc]; rfl)
    rw [Nat.add_zero, Nat.mod_eq_of_lt h.tail_lt] at hx
    show q.content.head? = some (q.buffer q.tail)
    rw [hc, hx]
    rfl
  | store t out => exact h.release

/-- A push that returns false met a full queue. -/
theorem Inv.refused (h : q.Inv k (some pc) c) (hr : (q.push k pc).2 = .inr false) : q.content.length + 1 = SIZE k := by
  cases pc with
  | loadHead item => cases hr
  | loadTail item i next =>
    obtain ⟨rfl, rfl⟩ := h.producer
    simp only [Spsc.push] at hr
    split at hr
    · rename_i he
      exact h.full_iff.mp he
    · cases hr
  | copy item i next => cases hr
  | store item next => cases hr

/-- A pop that returns false met an empty queue. -/
theorem Inv.drained {pc : PopPc T} (h : q.Inv k p (some pc)) (hr : (q.pop k pc).2 = .inr none) : q.content = [] := by
  cases pc with
  | loadTail => cases hr
  | loadHead t =>
    obtain rfl : t = q.tail := h.consumer
    simp only [Spsc.pop] at hr
    split at hr
    · rename_i he
      exact h.empty_iff.mp he
    · cases hr
  | copy t => cases hr
  | store t out => cases hr

/-! ## What a step does to the items -/

theorem push_goes_on {pc' : PushPc T} (hr : (q.push k pc).2 = .inl pc') :
    (q.push k pc).1.pushed = q.pushed ∧ (q.push k pc).1.popped = q.popped ∧ pc'.item = pc.item := by
  cases pc with
  | loadHead item =>
    cases hr
    exact ⟨rfl, rfl, rfl⟩
  | loadTail item i next =>
    simp only [Spsc.push] at hr ⊢
    split at hr
    · cases hr
    · rename_i hne
      cases hr
      rw [if_neg hne]
      exact ⟨rfl, rfl, rfl⟩
  | copy item i next =>
    cases hr
    exact ⟨rfl, rfl, rfl⟩
  | store item next => cases hr

theorem push_returns {ok : Bool} (hr : (q.push k pc).2 = .inr ok) :
    (q.push k pc).1.pushed = q.pushed ++ (if ok then [pc.item] else []) ∧ (q.push k pc).1.popped = q.popped := by
  cases pc with
  | loadHead item => cases hr
  | loadTail item i next =>
    simp only [Spsc.push] at hr ⊢
    split at hr
    · rename_i he
      cases hr
      rw [if_pos he]
      exact ⟨(append_nil _).symm, rfl⟩
    · cases hr
  | copy item i next => cases hr
  | store item next =>
    cases hr
    exact ⟨rfl, rfl⟩

theorem pop_goes_on {pc pc' : PopPc T} (hr : (q.pop k pc).2 = .inl pc') :
    (q.pop k pc).1.pushed = q.pushed ∧ (q.pop k pc).1.popped = q.popped := by
  cases pc with
  | loadTail => exact ⟨rfl, rfl⟩
  | loadHead t =>
    simp only [Spsc.pop]
    split <;> exact ⟨rfl, rfl⟩
  | copy t => exact ⟨rfl, rfl⟩
  | store t out => cases hr

theorem pop_returns {pc : PopPc T} {out : Option T} (hr : (q.pop k pc).2 = .inr out) :
    (q.pop k pc).1.pushed = q.pushed ∧ (q.pop k pc).1.popped = q.popped ++ out.toList := by
  cases pc with
  | loadTail => cases hr
  | loadHead t =>
    simp only [Spsc.pop] at hr ⊢
    split at hr
    · rename_i he
      cases hr
      rw [if_pos he]
      exact ⟨rfl, (append_nil _).symm⟩
    · cases hr
  | copy t => cases hr
  | store t out =>
    cases hr
    exact ⟨rfl, rfl⟩

end Spsc

end HftLab.Lockfree
