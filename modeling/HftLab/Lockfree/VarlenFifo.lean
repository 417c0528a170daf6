/-
  HftLab.Lockfree.VarlenFifo — the byte ring is a queue of byte strings.

  From `tail` on, the ring holds the frames of the messages that were sent and not received, one behind the other, and
  `head` is the cell after them. The producer copies its frame to the cells from `head` on, which it found free; a
  consumer that moves on only frees more. The consumer copies from the first frame, which stays where it is until the
  consumer itself moves `tail`.
-/

import HftLab.Lockfree.Varlen

namespace HftLab.Lockfree.Varlen

open Lib Function List

variable {k : Nat} {s s' : Varlen}

/-! ## Indices -/

theorem SIZE_pos (k : Nat) : 0 < SIZE k := Nat.two_pow_pos k

theorem SIZE_ge (hk : 6 ≤ k) : 64 ≤ SIZE k := by
  have h := Nat.pow_le_pow_right (by decide : 0 < 2) hk
  exact h

theorem mask_eq (k x : Nat) : x &&& MASK k = x % SIZE k := Nat.and_two_pow_sub_one_eq_mod x k

/-- A power of two divides the range of `size_t`. -/
theorem SIZE_dvd (hk : k < 64) : SIZE k ∣ 18446744073709551616 := by
  have h := Nat.pow_dvd_pow 2 hk.le
  exact h

theorem ahead_eq (hk : k < 64) (pos n : Nat) : ahead k pos n = (pos + n) % SIZE k := by
  unfold ahead uint64
  rw [mask_eq, Nat.mod_mod_of_dvd _ (SIZE_dvd hk)]

theorem usub_mod (hk : k < 64) {x y : Nat} (hy : y ≤ SIZE k) : usub x y % SIZE k = (x + SIZE k - y) % SIZE k := by
  unfold usub
  rw [Nat.mod_mod_of_dvd _ (SIZE_dvd hk)]
  obtain ⟨c, hc⟩ := SIZE_dvd hk
  obtain ⟨c, rfl⟩ : ∃ d, c = d + 1 := Nat.exists_eq_succ_of_ne_zero (by rintro rfl; cases hc)
  rw [hc, Nat.mul_succ]
  have hsum : x + (SIZE k * c + SIZE k) - y = x + SIZE k - y + SIZE k * c := by omega
  rw [hsum, Nat.add_mul_mod_self_left]

theorem mod_wrap {k t u : Nat} (ht : t < SIZE k) (hu : u < SIZE k) (h : ¬ t + u < SIZE k) : (t + u) % SIZE k = t + u - SIZE k := by
  rw [Nat.mod_eq_sub_mod (by omega), Nat.mod_eq_of_lt (by omega)]

/-- `u` bytes are in use from `t` on. -/
theorem available_eq (hk : k < 64) {t u : Nat} (ht : t < SIZE k) (hu : u < SIZE k) : available k ((t + u) % SIZE k) t = u := by
  unfold available
  rw [mask_eq, usub_mod hk ht.le]
  by_cases h : t + u < SIZE k
  · rw [Nat.mod_eq_of_lt h]
    have hsum : t + u + SIZE k - t = u + SIZE k := by omega
    rw [hsum, Nat.add_mod_right, Nat.mod_eq_of_lt hu]
  · rw [mod_wrap ht hu h]
    have hsum : t + u - SIZE k + SIZE k - t = u := by omega
    rw [hsum, Nat.mod_eq_of_lt hu]

theorem freeSpace_eq (hk : k < 64) {t u : Nat} (ht : t < SIZE k) (hu : u < SIZE k) :
    freeSpace k ((t + u) % SIZE k) t = SIZE k - 1 - u := by
  have hpos := SIZE_pos k
  have hh : (t + u) % SIZE k ≤ SIZE k := (Nat.mod_lt _ hpos).le
  have hback : usub t ((t + u) % SIZE k) % SIZE k = (SIZE k - u) % SIZE k := by
    rw [usub_mod hk hh]
    by_cases h : t + u < SIZE k
    · rw [Nat.mod_eq_of_lt h]
      have hsum : t + SIZE k - (t + u) = SIZE k - u := by omega
      rw [hsum]
    · rw [mod_wrap ht hu h]
      have hsum : t + SIZE k - (t + u - SIZE k) = SIZE k - u + SIZE k := by omega
      rw [hsum, Nat.add_mod_right]
  unfold freeSpace
  rw [mask_eq, usub_mod hk hpos, Nat.add_sub_assoc hpos, ← Nat.mod_add_mod, hback, Nat.mod_add_mod]
  by_cases h : u = 0
  · rw [h, Nat.sub_zero, Nat.add_mod_left, Nat.mod_eq_of_lt (by omega), Nat.sub_zero]
  · have hsum : SIZE k - u + (SIZE k - 1) = SIZE k - 1 - u + SIZE k := by omega
    rw [hsum, Nat.add_mod_right, Nat.mod_eq_of_lt (by omega)]

/-- `read_at` visits the cells from `pos` on, over the end of the buffer. -/
theorem readAt_eq {pos n : Nat} (hp : pos < SIZE k) (hn : n ≤ SIZE k) : readAt k pos n = ringSpan (SIZE k) pos n := by
  unfold readAt
  split
  · rw [ringSpan_eq_range ‹_›]
  · have hsplit : n = SIZE k - pos + (n - (SIZE k - pos)) := by omega
    have hend : (pos + (SIZE k - pos)) % SIZE k = 0 := by
      rw [Nat.add_sub_cancel' hp.le, Nat.mod_self]
    conv_rhs => rw [hsplit]
    rw [ringSpan_add, hend, ringSpan_eq_range (by omega), ringSpan_eq_range (by omega)]

theorem writeAt_eq {pos : Nat} {src : List UInt8} (hp : pos < SIZE k) (hn : src.length ≤ SIZE k) :
    writeAt k pos src = (ringSpan (SIZE k) pos src.length).zip src := by
  rw [← readAt_eq hp hn]
  unfold writeAt readAt
  split
  · rfl
  · rw [← zip_append, take_append_drop]
    rw [length_range', length_take]
    omega

theorem frame_length (m : List UInt8) : (frame m).length = HDR + m.length := by
  unfold frame
  rw [length_append, leBytes_length]

/-- What `write` stores: the frame, from `h` on. -/
theorem stores_eq (hk' : k < 64) {h : Nat} {m : List UInt8} (hh : h < SIZE k) (hm : (frame m).length ≤ SIZE k) :
    writeAt k h (leBytes HDR m.length) ++ writeAt k (ahead k h HDR) m = (ringSpan (SIZE k) h (frame m).length).zip (frame m) := by
  rw [frame_length] at hm
  have hlen : (leBytes HDR m.length).length = HDR := leBytes_length HDR m.length
  rw [ahead_eq hk', writeAt_eq hh (by omega), writeAt_eq (Nat.mod_lt _ (SIZE_pos k)) (by omega), hlen, frame_length, ringSpan_add]
  unfold frame
  rw [zip_append (by rw [ringSpan_length, hlen])]

/-! ## The invariant -/

/-- A length that fits its header. -/
def Sized (m : List UInt8) : Prop := 0 < m.length ∧ m.length < 4294967296

/-- What the producer has copied lies from `head` on, where there is room for the whole frame. -/
def WriterOk (k : Nat) (s : Varlen) : Prop :=
  match s.writer with
  | .idle => True
  | .load m => Sized m
  | .store m h todo => Sized m ∧ h = s.head ∧ s.content.length + (frame m).length < SIZE k ∧
    ∃ d, todo = ((ringSpan (SIZE k) h (frame m).length).zip (frame m)).drop d ∧ RingHolds s.buffer (SIZE k) h ((frame m).take d)

/-- What the consumer has copied is the start of the first message. -/
def ReaderOk (k : Nat) (s : Varlen) : Prop :=
  match s.reader with
  | .idle | .load _ => True
  | .header _ t h todo got => t = s.tail ∧ ∃ m rest, s.queue = m :: rest ∧ HDR + m.length ≤ available k h t ∧
    ∃ d, todo = (ringSpan (SIZE k) t HDR).drop d ∧ got = (leBytes HDR m.length).take d
  | .body t len todo got => t = s.tail ∧ ∃ m rest, s.queue = m :: rest ∧ len = m.length ∧
    ∃ d, todo = (ringSpan (SIZE k) ((t + HDR) % SIZE k) len).drop d ∧ got = m.take d

structure Inv (k : Nat) (s : Varlen) : Prop where
  fifo : s.received ++ s.queue = s.sent
  sized : ∀ m ∈ s.sent, Sized m
  tail_lt : s.tail < SIZE k
  head_eq : s.head = (s.tail + s.content.length) % SIZE k
  room : s.content.length < SIZE k
  holds : RingHolds s.buffer (SIZE k) s.tail s.content
  writer : s.WriterOk k
  reader : s.ReaderOk k

theorem start_inv (k : Nat) : ({} : Varlen).Inv k :=
  ⟨rfl, fun _ h => (by cases h), SIZE_pos k, (Nat.zero_mod _).symm, SIZE_pos k, RingHolds.nil _ _ _, trivial, trivial⟩

/-- The next element of a list that is worked off from the front. -/
theorem of_drop_eq_cons {α : Type} {l l' : List α} {d : Nat} {a : α} (h : a :: l' = l.drop d) :
    l[d]? = some a ∧ l' = l.drop (d + 1) := by
  constructor
  · have h0 : (l.drop d)[0]? = some a := by rw [← h]; rfl
    rw [List.getElem?_drop] at h0
    exact h0
  · rw [← drop_drop, ← h]
    rfl

theorem Inv.head_lt (h : s.Inv k) : s.head < SIZE k := by
  rw [h.head_eq]
  exact Nat.mod_lt _ (SIZE_pos k)

/-! ## The producer's steps -/

section

variable {m : List UInt8} {p i : Nat} {b : UInt8} {todo : List (Nat × UInt8)}

theorem Inv.writerOk_store (h : s.Inv k) (hw : s.writer = .store m p todo) : Sized m ∧ p = s.head ∧
    s.content.length + (frame m).length < SIZE k ∧
    ∃ d, todo = ((ringSpan (SIZE k) p (frame m).length).zip (frame m)).drop d ∧ RingHolds s.buffer (SIZE k) p ((frame m).take d) := by
  have hok := h.writer
  unfold WriterOk at hok
  rw [hw] at hok
  exact hok

/-- The byte that is stored next goes to the cell after those that are in use or copied. -/
theorem store_next {d : Nat} (h : (i, b) :: todo = ((ringSpan (SIZE k) p (frame m).length).zip (frame m)).drop d) :
    d < (frame m).length ∧ i = (p + d) % SIZE k ∧ (frame m)[d]? = some b ∧
    todo = ((ringSpan (SIZE k) p (frame m).length).zip (frame m)).drop (d + 1) := by
  obtain ⟨hget, htodo⟩ := of_drop_eq_cons h
  obtain ⟨h1, h2⟩ := List.getElem?_zip_eq_some.mp hget
  have hd : d < (frame m).length := (List.getElem?_eq_some_iff.mp h2).1
  rw [ringSpan_get hd] at h1
  exact ⟨hd, (Option.some.inj h1).symm, h2, htodo⟩

/-- No byte of a message is overwritten before it is consumed. -/
theorem Inv.store_outside (h : s.Inv k) (hw : s.writer = .store m p ((i, b) :: todo)) :
    ∀ j < s.content.length, (s.tail + j) % SIZE k ≠ i := by
  obtain ⟨-, hp, hroom, d, htodo, -⟩ := h.writerOk_store hw
  obtain ⟨hd, rfl, -⟩ := store_next htodo
  intro j hj heq
  rw [hp, h.head_eq, Nat.mod_add_mod] at heq
  have hsame := ring_inj heq (by omega) (by omega)
  omega

theorem Inv.storeByte (h : s.Inv k) (hw : s.writer = .store m p ((i, b) :: todo)) :
    ({ s with buffer := update s.buffer i b, writer := .store m p todo } : Varlen).Inv k := by
  have hout := h.store_outside hw
  obtain ⟨hm, hp, hroom, d, htodo, hcopied⟩ := h.writerOk_store hw
  obtain ⟨hd, rfl, hb, htodo⟩ := store_next htodo
  refine { h with holds := h.holds.update b hout, writer := ⟨hm, hp, hroom, d + 1, htodo, ?_⟩ }
  show RingHolds (update s.buffer ((p + d) % SIZE k) b) (SIZE k) p ((frame m).take (d + 1))
  rw [take_add_one, hb, Option.toList_some, ringHolds_append]
  refine ⟨hcopied.update b fun j hj heq => ?_, fun j x hx => ?_⟩
  · rw [length_take] at hj
    have hsame := ring_inj heq (by omega) (by omega)
    omega
  · obtain ⟨rfl, rfl⟩ : j = 0 ∧ b = x := by
      cases j with
      | zero => exact ⟨rfl, Option.some.inj hx⟩
      | succ j => cases hx
    rw [length_take, Nat.min_eq_left hd.le, Nat.mod_add_mod, Nat.add_zero, update_self]

theorem queue_sent (hf : s.received ++ s.queue = s.sent) (m : List UInt8) :
    ({ s with sent := s.sent ++ [m] } : Varlen).queue = s.queue ++ [m] := by
  show (s.sent ++ [m]).drop s.received.length = s.sent.drop s.received.length ++ [m]
  refine drop_append_of_le_length ?_
  rw [← hf, length_append]
  omega

theorem content_sent (hf : s.received ++ s.queue = s.sent) (m : List UInt8) :
    ({ s with sent := s.sent ++ [m] } : Varlen).content = s.content ++ frame m := by
  unfold content
  rw [queue_sent hf, flatMap_append]
  rw [flatMap_singleton]

theorem Inv.commit (hk : k < 64) (h : s.Inv k) (hw : s.writer = .store m p []) :
    ({ s with head := ahead k p (HDR + m.length), writer := .idle, sent := s.sent ++ [m] } : Varlen).Inv k := by
  obtain ⟨hm, rfl, hroom, d, htodo, hcopied⟩ := h.writerOk_store hw
  have hlen : (frame m).length ≤ d := by
    have h1 := drop_eq_nil_iff.mp htodo.symm
    rw [length_zip, ringSpan_length, Nat.min_self] at h1
    exact h1
  rw [take_of_length_le hlen] at hcopied
  have hqueue := queue_sent h.fifo m
  have hcontent := content_sent h.fifo m
  refine ⟨?_, ?_, h.tail_lt, ?_, ?_, ?_, trivial, ?_⟩
  · show s.received ++ ({ s with sent := s.sent ++ [m] } : Varlen).queue = s.sent ++ [m]
    rw [hqueue, ← append_assoc, h.fifo]
  · intro x hx
    rcases mem_append.mp hx with hx | hx
    · exact h.sized x hx
    · rw [mem_singleton.mp hx]
      exact hm
  · show ahead k s.head (HDR + m.length) = (s.tail + ({ s with sent := s.sent ++ [m] } : Varlen).content.length) % SIZE k
    rw [ahead_eq hk, hcontent, h.head_eq, Nat.mod_add_mod, length_append, frame_length, Nat.add_assoc]
  · show ({ s with sent := s.sent ++ [m] } : Varlen).content.length < SIZE k
    rw [hcontent, length_append]
    exact hroom
  · show RingHolds s.buffer (SIZE k) s.tail ({ s with sent := s.sent ++ [m] } : Varlen).content
    rw [hcontent, ringHolds_append, ← h.head_eq]
    exact ⟨h.holds, hcopied⟩
  · -- The first message is still the first.
    have hok := h.reader
    unfold ReaderOk at hok ⊢
    dsimp only
    split at hok
    · trivial
    · trivial
    · obtain ⟨ht, x, rest, hq, hrest⟩ := hok
      refine ⟨ht, x, rest ++ [m], ?_, hrest⟩
      exact hqueue.trans (by rw [hq]; rfl)
    · obtain ⟨ht, x, rest, hq, hrest⟩ := hok
      refine ⟨ht, x, rest ++ [m], ?_, hrest⟩
      exact hqueue.trans (by rw [hq]; rfl)

theorem Inv.loadTail (hk : k < 64) (h : s.Inv k) (hw : s.writer = .load m) (hfree : m.length + HDR ≤ freeSpace k s.head s.tail)
    (htodo : todo = writeAt k s.head (leBytes HDR m.length) ++ writeAt k (ahead k s.head HDR) m) :
    ({ s with writer := .store m s.head todo } : Varlen).Inv k := by
  have hm : Sized m := by
    have hok := h.writer
    unfold WriterOk at hok
    rw [hw] at hok
    exact hok
  rw [h.head_eq, freeSpace_eq hk h.tail_lt h.room] at hfree
  have hlen := frame_length m
  have hpos := h.room
  refine { h with writer := ⟨hm, rfl, ?_, 0, ?_, fun _ _ hx => (by cases hx)⟩ }
  · show s.content.length + (frame m).length < SIZE k
    omega
  · rw [htodo, stores_eq hk h.head_lt (by unfold HDR at *; omega)]
    rfl

end

/-! ## The consumer's steps -/

section

variable {m got : List UInt8} {rest : List (List UInt8)} {maxLen t p len i : Nat} {todo : List Nat} {e : VarlenEvent}
    {out : VarlenOut}

theorem content_cons (h : s.queue = m :: rest) : s.content = frame m ++ rest.flatMap frame := by
  unfold content
  rw [h, flatMap_cons]

/-- The first frame, from `tail` on. -/
theorem Inv.first_frame (h : s.Inv k) (hq : s.queue = m :: rest) : RingHolds s.buffer (SIZE k) s.tail (leBytes HDR m.length) ∧
    RingHolds s.buffer (SIZE k) ((s.tail + HDR) % SIZE k) m := by
  have hholds := h.holds
  rw [content_cons hq, ringHolds_append] at hholds
  have hframe := hholds.1
  unfold frame at hframe
  rw [ringHolds_append, leBytes_length] at hframe
  exact hframe

theorem Inv.sized_first (h : s.Inv k) (hq : s.queue = m :: rest) : Sized m :=
  h.sized m (mem_of_mem_drop (by
    show m ∈ s.queue
    rw [hq]
    exact mem_cons_self))

theorem frame_le (hq : s.queue = m :: rest) : HDR + m.length ≤ s.content.length := by
  rw [content_cons hq, length_append, frame_length]
  omega

theorem Inv.readerOk_header (h : s.Inv k) (hr : s.reader = .header maxLen t p todo got) : t = s.tail ∧
    ∃ m rest, s.queue = m :: rest ∧ HDR + m.length ≤ available k p t ∧
    ∃ d, todo = (ringSpan (SIZE k) t HDR).drop d ∧ got = (leBytes HDR m.length).take d := by
  have hok := h.reader
  unfold ReaderOk at hok
  rw [hr] at hok
  exact hok

theorem Inv.readerOk_body (h : s.Inv k) (hr : s.reader = .body t len todo got) : t = s.tail ∧
    ∃ m rest, s.queue = m :: rest ∧ len = m.length ∧
    ∃ d, todo = (ringSpan (SIZE k) ((t + HDR) % SIZE k) len).drop d ∧ got = m.take d := by
  have hok := h.reader
  unfold ReaderOk at hok
  rw [hr] at hok
  exact hok

/-- One more byte of `l` is copied. -/
theorem copy_next {l : List UInt8} {buffer : Nat → UInt8} {d n : Nat} (hn : l.length = n) (hl : RingHolds buffer (SIZE k) p l)
    (htodo : i :: todo = (ringSpan (SIZE k) p n).drop d) (hgot : got = l.take d) :
    todo = (ringSpan (SIZE k) p n).drop (d + 1) ∧ got ++ [buffer i] = l.take (d + 1) := by
  obtain ⟨hget, hnext⟩ := of_drop_eq_cons htodo
  have hd : d < n := by
    have h1 := (List.getElem?_eq_some_iff.mp hget).1
    rw [ringSpan_length] at h1
    exact h1
  rw [ringSpan_get hd] at hget
  cases hget
  refine ⟨hnext, ?_⟩
  have hx : l[d]? = some l[d] := List.getElem?_eq_getElem (by omega)
  rw [take_add_one, hx, Option.toList_some, hl d _ hx, hgot]

/-- Every byte of `l` is copied. -/
theorem copy_done {l : List UInt8} {d n : Nat} (hn : l.length = n) (htodo : [] = (ringSpan (SIZE k) p n).drop d)
    (hgot : got = l.take d) : got = l := by
  have h1 := drop_eq_nil_iff.mp htodo.symm
  rw [ringSpan_length] at h1
  rw [hgot, take_of_length_le (by omega)]

theorem Inv.headerByte (h : s.Inv k) (hr : s.reader = .header maxLen t p (i :: todo) got) :
    ({ s with reader := .header maxLen t p todo (got ++ [s.buffer i]) } : Varlen).Inv k := by
  obtain ⟨rfl, m, rest, hq, havail, d, htodo, hgot⟩ := h.readerOk_header hr
  obtain ⟨htodo, hgot⟩ := copy_next (leBytes_length HDR m.length) (h.first_frame hq).1 htodo hgot
  exact { h with reader := ⟨rfl, m, rest, hq, havail, d + 1, htodo, hgot⟩ }

theorem Inv.bodyByte (h : s.Inv k) (hr : s.reader = .body t len (i :: todo) got) :
    ({ s with reader := .body t len todo (got ++ [s.buffer i]) } : Varlen).Inv k := by
  obtain ⟨rfl, m, rest, hq, hlen, d, htodo, hgot⟩ := h.readerOk_body hr
  obtain ⟨htodo, hgot⟩ := copy_next hlen.symm (h.first_frame hq).2 htodo hgot
  exact { h with reader := ⟨rfl, m, rest, hq, hlen, d + 1, htodo, hgot⟩ }

/-- The header read is the length of the first message, all of which is there. -/
theorem Inv.header_done (h : s.Inv k) (hr : s.reader = .header maxLen t p [] got) :
    t = s.tail ∧ ∃ m rest, s.queue = m :: rest ∧ leNat got = m.length ∧ HDR + m.length ≤ available k p t := by
  obtain ⟨ht, m, rest, hq, havail, d, htodo, hgot⟩ := h.readerOk_header hr
  rw [copy_done (leBytes_length HDR m.length) htodo hgot]
  exact ⟨ht, m, rest, hq, leNat_leBytes (h.sized_first hq).2, havail⟩

theorem Inv.beginBody (hk : k < 64) (h : s.Inv k) (hr : s.reader = .header maxLen t p [] got) :
    ({ s with reader := .body t (leNat got) (readAt k (ahead k t HDR) (leNat got)) [] } : Varlen).Inv k := by
  obtain ⟨rfl, m, rest, hq, hlen, -⟩ := h.header_done hr
  have hroom := h.room
  have hframe := frame_le hq
  refine { h with reader := ⟨rfl, m, rest, hq, hlen, 0, ?_, rfl⟩ }
  rw [ahead_eq hk, readAt_eq (Nat.mod_lt _ (SIZE_pos k)) (by omega)]
  rfl

/-- An empty queue is what the consumer finds when there is no header. -/
theorem Inv.loadHead (hk : k < 64) (h : s.Inv k) : (available k s.head s.tail < HDR ↔ s.queue = []) ∧
    available k s.head s.tail = s.content.length := by
  have havail : available k s.head s.tail = s.content.length := by
    rw [h.head_eq, available_eq hk h.tail_lt h.room]
  refine ⟨?_, havail⟩
  rw [havail]
  constructor
  · intro hlt
    cases hq : s.queue with
    | nil => rfl
    | cons m rest =>
      have h1 := frame_le hq
      omega
  · intro hq
    unfold content
    rw [hq]
    decide

theorem Inv.beginHeader (hk : 6 ≤ k) (hk' : k < 64) (h : s.Inv k) (maxLen : Nat) (havail : ¬ available k s.head s.tail < HDR) :
    ({ s with reader := .header maxLen s.tail s.head (readAt k s.tail HDR) [] } : Varlen).Inv k := by
  obtain ⟨hiff, hall⟩ := h.loadHead hk'
  have hsize := SIZE_ge hk
  cases hq : s.queue with
  | nil => exact absurd (hiff.mpr hq) havail
  | cons m rest =>
    refine { h with reader := ⟨rfl, m, rest, hq, ?_, 0, ?_, rfl⟩ }
    · rw [hall]
      exact frame_le hq
    · rw [readAt_eq h.tail_lt (by unfold HDR; omega)]
      rfl

/-- A read ends: the first message is handed out. -/
theorem Inv.body_done (h : s.Inv k) (hr : s.reader = .body t len [] got) :
    t = s.tail ∧ len = got.length ∧ ∃ rest, s.queue = got :: rest := by
  obtain ⟨ht, m, rest, hq, hlen, d, htodo, hgot⟩ := h.readerOk_body hr
  rw [copy_done hlen.symm htodo hgot]
  exact ⟨ht, hlen, rest, hq⟩

theorem Inv.consume (hk : k < 64) (h : s.Inv k) (hr : s.reader = .body t len [] got) :
    ({ s with tail := ahead k t (HDR + len), reader := .idle, received := s.received ++ [got] } : Varlen).Inv k := by
  obtain ⟨rfl, rfl, rest, hq⟩ := h.body_done hr
  have hqueue : s.sent.drop (s.received ++ [got]).length = rest := by
    rw [length_append, ← drop_drop]
    show s.queue.drop 1 = rest
    rw [hq]
    rfl
  have hcontent : s.content = frame got ++ rest.flatMap frame := content_cons hq
  have hholds := h.holds
  have hroom := h.room
  rw [hcontent, ringHolds_append] at hholds
  rw [hcontent, length_append] at hroom
  rw [ahead_eq hk]
  refine ⟨?_, h.sized, Nat.mod_lt _ (SIZE_pos k), ?_, ?_, ?_, ?_, trivial⟩
  · show s.received ++ [got] ++ s.sent.drop (s.received ++ [got]).length = s.sent
    rw [hqueue, append_assoc, singleton_append, ← hq]
    exact h.fifo
  · show s.head = ((s.tail + (HDR + got.length)) % SIZE k + ((s.sent.drop (s.received ++ [got]).length).flatMap frame).length) % SIZE k
    rw [hqueue, h.head_eq, hcontent, length_append, frame_length, Nat.mod_add_mod, Nat.add_assoc s.tail]
  · show ((s.sent.drop (s.received ++ [got]).length).flatMap frame).length < SIZE k
    rw [hqueue]
    omega
  · show RingHolds s.buffer (SIZE k) ((s.tail + (HDR + got.length)) % SIZE k) ((s.sent.drop (s.received ++ [got]).length).flatMap frame)
    rw [hqueue, ← frame_length]
    exact hholds.2
  · -- The producer found room for its frame before this message was consumed.
    have hok := h.writer
    unfold WriterOk at hok ⊢
    dsimp only
    split at hok
    · trivial
    · exact hok
    · obtain ⟨hm, hp, hfit, hcopied⟩ := hok
      refine ⟨hm, hp, ?_, hcopied⟩
      show ((s.sent.drop (s.received ++ [got]).length).flatMap frame).length + _ < SIZE k
      rw [hcontent, length_append] at hfit
      rw [hqueue]
      omega

/-! ## Every step -/

/-- What a step does to a ring in order. -/
structure StepOk (k : Nat) (s s' : Varlen) (e : VarlenEvent) (out : VarlenOut) : Prop where
  /-- No byte of a message not yet consumed is overwritten. -/
  kept : ∀ j < s.content.length, s'.buffer ((s.tail + j) % SIZE k) = s.buffer ((s.tail + j) % SIZE k)
  /-- A write fails for its length, or for the space that is free when `tail_` is loaded. -/
  refused : out = .wrote false → ∃ m : List UInt8, e = .write m ∧ (m.length = 0 ∨ SIZE k - 1 < m.length + HDR) ∨
    e = .producer ∧ s.writer = .load m ∧ SIZE k - 1 - s.content.length < m.length + HDR
  /-- A read that returns 0 found no message, or one that is too long for it. -/
  nothing : out = .read [] →
    s.queue = [] ∨ ∃ m rest maxLen t h todo got, s.queue = m :: rest ∧ s.reader = .header maxLen t h todo got ∧ maxLen < m.length
  /-- Until it returns a length, a read changes nothing but the consumer's own variables. -/
  untouched : (∃ n, e = .read n) ∨ e = .consumer → (∀ m, out = .read m → m = []) → ∃ pc, s' = { s with reader := pc }
  /-- A read that returns a length hands out the first message. -/
  handed : ∀ m, out = .read m → m ≠ [] → s.queue.head? = some m ∧ s'.received = s.received ++ [m]

/-- The producer goes on, or is done. -/
theorem StepOk.stores (hout : out = .none ∨ out = .wrote true)
    (hb : ∀ j < s.content.length, s'.buffer ((s.tail + j) % SIZE k) = s.buffer ((s.tail + j) % SIZE k)) :
    StepOk k s s' .producer out := by
  refine ⟨hb, ?_, ?_, ?_, ?_⟩
  · rintro rfl
    rcases hout with h | h <;> cases h
  · rintro rfl
    rcases hout with h | h <;> cases h
  · rintro (⟨n, h⟩ | h) <;> cases h
  · rintro m rfl
    rcases hout with h | h <;> cases h

theorem StepOk.refuses {m : List UInt8} (hb : s'.buffer = s.buffer)
    (h : e = .write m ∧ (m.length = 0 ∨ SIZE k - 1 < m.length + HDR) ∨
      e = .producer ∧ s.writer = .load m ∧ SIZE k - 1 - s.content.length < m.length + HDR) : StepOk k s s' e (.wrote false) := by
  refine ⟨fun _ _ => by rw [hb], fun _ => ⟨m, h⟩, fun h => (by cases h), fun he => ?_, fun _ h => (by cases h)⟩
  rcases h with ⟨rfl, -⟩ | ⟨rfl, -⟩ <;> rcases he with ⟨n, he⟩ | he <;> cases he

/-- The consumer goes on. -/
theorem StepOk.loads (e : VarlenEvent) (pc : ReaderPc) : StepOk k s { s with reader := pc } e .none :=
  ⟨fun _ _ => rfl, fun h => (by cases h), fun h => (by cases h), fun _ _ => ⟨pc, rfl⟩, fun _ h => (by cases h)⟩

theorem StepOk.returnsZero (h : s.queue = [] ∨
    ∃ m rest maxLen t h todo got, s.queue = m :: rest ∧ s.reader = .header maxLen t h todo got ∧ maxLen < m.length) :
    StepOk k s { s with reader := .idle } e (.read []) := by
  refine ⟨fun _ _ => rfl, fun h => (by cases h), fun _ => h, fun _ _ => ⟨.idle, rfl⟩, fun m he hm => ?_⟩
  cases he
  exact absurd rfl hm

theorem Inv.producer (hk : k < 64) (h : s.Inv k) (hs : s.advanceWriter k = some (s', out)) :
    s'.Inv k ∧ StepOk k s s' .producer out := by
  unfold advanceWriter at hs
  cases hw : s.writer with
  | idle =>
    rw [hw] at hs
    cases hs
  | load m =>
    rw [hw] at hs
    dsimp only at hs
    split at hs
    · rename_i hfree
      rw [h.head_eq, freeSpace_eq hk h.tail_lt h.room] at hfree
      cases hs
      exact ⟨{ h with writer := trivial }, .refuses rfl (.inr ⟨rfl, hw, hfree⟩)⟩
    · rename_i hfree
      cases hs
      exact ⟨h.loadTail hk hw (not_lt.mp hfree) rfl, .stores (.inl rfl) fun _ _ => rfl⟩
  | store m p todo =>
    cases todo with
    | nil =>
      rw [hw] at hs
      cases hs
      exact ⟨h.commit hk hw, .stores (.inr rfl) fun _ _ => rfl⟩
    | cons x todo =>
      obtain ⟨i, b⟩ := x
      rw [hw] at hs
      cases hs
      exact ⟨h.storeByte hw, .stores (.inl rfl) fun j hj => update_of_ne (h.store_outside hw j hj) b s.buffer⟩

theorem Inv.consumer (hk : 6 ≤ k) (hk' : k < 64) (h : s.Inv k) (hs : s.advanceReader k = some (s', out)) :
    s'.Inv k ∧ StepOk k s s' .consumer out := by
  unfold advanceReader at hs
  cases hr : s.reader with
  | idle =>
    rw [hr] at hs
    cases hs
  | load maxLen =>
    rw [hr] at hs
    dsimp only at hs
    split at hs
    · rename_i havail
      cases hs
      exact ⟨{ h with reader := trivial }, .returnsZero (.inl ((h.loadHead hk').1.mp havail))⟩
    · rename_i havail
      cases hs
      exact ⟨h.beginHeader hk hk' maxLen havail, .loads _ _⟩
  | header maxLen t p todo got =>
    cases todo with
    | cons i todo =>
      rw [hr] at hs
      cases hs
      exact ⟨h.headerByte hr, .loads _ _⟩
    | nil =>
      obtain ⟨-, m, rest, hq, hlen, havail⟩ := h.header_done hr
      have hm := (h.sized_first hq).1
      rw [hr] at hs
      dsimp only at hs
      -- A committed frame is whole, so the test for a corrupt one fails.
      rw [if_neg (by rw [hlen]; omega)] at hs
      split at hs
      · rename_i hlong
        rw [hlen] at hlong
        cases hs
        exact ⟨{ h with reader := trivial }, .returnsZero (.inr ⟨m, rest, maxLen, t, p, [], got, hq, hr, hlong⟩)⟩
      · cases hs
        exact ⟨h.beginBody hk' hr, .loads _ _⟩
  | body t len todo got =>
    cases todo with
    | cons i todo =>
      rw [hr] at hs
      cases hs
      exact ⟨h.bodyByte hr, .loads _ _⟩
    | nil =>
      obtain ⟨-, -, rest, hq⟩ := h.body_done hr
      have hm : got ≠ [] := ne_nil_of_length_pos (h.sized_first hq).1
      rw [hr] at hs
      cases hs
      refine ⟨h.consume hk' hr, fun _ _ => rfl, fun h => (by cases h), fun he => ?_, fun _ he => ?_, fun m he _ => ?_⟩
      · cases he
        exact absurd rfl hm
      · exact absurd (he got rfl) hm
      · cases he
        exact ⟨by rw [hq]; rfl, rfl⟩

theorem Inv.exec (hk : 6 ≤ k) (hk' : k < 64) (h : s.Inv k) (hs : s.exec k e = some (s', out)) :
    s'.Inv k ∧ StepOk k s s' e out := by
  cases e with
  | write m =>
    rw [Varlen.exec] at hs
    split at hs
    · split at hs
      · cases hs
      · rename_i h32
        split at hs
        · rename_i hlen
          cases hs
          exact ⟨h, .refuses rfl (.inl ⟨rfl, hlen⟩)⟩
        · rename_i hlen
          cases hs
          refine ⟨{ h with writer := ⟨by omega, by omega⟩ }, fun _ _ => rfl, fun h => (by cases h), fun h => (by cases h), ?_,
            fun _ h => (by cases h)⟩
          rintro (⟨n, h⟩ | h) <;> cases h
    · cases hs
  | read maxLen =>
    rw [Varlen.exec] at hs
    split at hs
    · cases hs
      exact ⟨{ h with reader := trivial }, .loads _ _⟩
    · cases hs
  | producer => exact h.producer hk' hs
  | consumer => exact h.consumer hk hk' hs

end

end HftLab.Lockfree.Varlen

namespace HftLab.Lockfree

open Lib

/-- In every interleaving of the producer's and the consumer's steps: what was received is what was sent first, the ring
    holds the frames of the rest, and every step keeps to this. -/
theorem varlen_fifo (k : Nat) (hk : 6 ≤ k) (hk' : k < 64) {s : Varlen} (h : Reachable (· = ({} : Varlen)) (Varlen.Step k) s) :
    s.received ++ s.queue = s.sent ∧ RingHolds s.buffer (Varlen.SIZE k) s.tail s.content ∧
    ∀ e s' out, s.exec k e = some (s', out) → Varlen.StepOk k s s' e out := by
  have hinv : s.Inv k := by
    refine h.invariant ?_ ?_
    · rintro s rfl
      exact Varlen.start_inv k
    · rintro s s' hs ⟨e, out, he⟩
      exact (hs.exec hk hk' he).1
  exact ⟨hinv.fifo, hinv.holds, fun _ _ _ he => (hinv.exec hk hk' he).2⟩

/-- A message of 56 bytes goes through a ring of 64, and one of 3 bytes whose frame goes over the end of the buffer. -/
def sampleTraffic : List VarlenEvent :=
  .write (List.replicate 56 1) :: List.replicate 62 .producer ++ .read 64 :: List.replicate 63 .consumer ++
    .write [7, 8, 9] :: List.replicate 9 .producer ++ .read 64 :: List.replicate 10 .consumer

def nextTraffic (s : Varlen) (e : VarlenEvent) : Option Varlen := (s.exec 6 e).map Prod.fst

theorem varlen_fifo_sample : ∃ s : Varlen, s.received = [List.replicate 56 1, [7, 8, 9]] ∧ s.head = 3 ∧
    s.received ++ s.queue = s.sent := by
  have hrun : (runEvents nextTraffic sampleTraffic {}).map (fun s => (s.received, s.head)) =
      some ([List.replicate 56 1, [7, 8, 9]], 3) := by
    decide +kernel
  obtain ⟨s, hs, hval⟩ := Option.map_eq_some_iff.mp hrun
  obtain ⟨hrec, hhead⟩ := Prod.mk.inj hval
  refine ⟨s, hrec, hhead, (varlen_fifo 6 le_rfl (by decide) (.run ?_ sampleTraffic (.start rfl) hs)).1⟩
  intro s e s' h
  obtain ⟨⟨s', out⟩, hx, rfl⟩ := Option.map_eq_some_iff.mp h
  exact ⟨e, out, hx⟩

end HftLab.Lockfree
