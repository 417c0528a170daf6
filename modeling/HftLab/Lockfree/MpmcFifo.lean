/-
  HftLab.Lockfree.MpmcFifo — the queue is first in, first out, and loses and doubles nothing.

  A cell's `seq` tells its lap and its owner. For the positions from `tail` to `head` it is the position itself while
  the push that claimed it is under way, one more once the value is there. For the positions from `head` on, up to one
  lap after `tail`, it is the position when the cell is free, and one more than the position of the lap before while a
  pop is still reading there. Each of these positions has a cell of its own, so no two owners meet.
-/

import HftLab.Lockfree.Mpmc

namespace HftLab.Lockfree.Mpmc

open Lib Function List

variable {T Θ : Type} {k : Nat} {s : Mpmc T Θ} {t t' : Θ} {p q : Nat} {v w : T}

/-! ## Cells -/

theorem two_le_SIZE (hk : 1 ≤ k) : 2 ≤ SIZE k := by
  have h := Nat.pow_le_pow_right (by decide : 0 < 2) hk
  exact h

theorem SIZE_le (hk : k < 64) : SIZE k ≤ 9223372036854775808 := by
  have h := Nat.pow_le_pow_right (by decide : 0 < 2) (Nat.le_of_lt_succ hk : k ≤ 63)
  exact h

theorem cellIndex_eq (k p : Nat) : cellIndex k p = p % SIZE k := Nat.and_two_pow_sub_one_eq_mod p k

theorem cellIndex_lt (k p : Nat) : cellIndex k p < SIZE k := by
  rw [cellIndex_eq]
  exact Nat.mod_lt p (Nat.two_pow_pos k)

theorem cellIndex_add (k p : Nat) : cellIndex k (p + SIZE k) = cellIndex k p := by
  rw [cellIndex_eq, cellIndex_eq, Nat.add_mod_right]

theorem cellIndex_ne (hne : p ≠ q) (hp : p < q + SIZE k) (hq : q < p + SIZE k) : cellIndex k p ≠ cellIndex k q := by
  rw [cellIndex_eq, cellIndex_eq]
  exact fun h => hne (ring_inj h hp hq)

theorem seqAt_congr (h : cellIndex k p = cellIndex k q) : s.seqAt k p = s.seqAt k q := by
  unfold seqAt
  rw [h]

/-- A position and the one a lap later have one cell. -/
theorem seqAt_lap (h : q + SIZE k = p) : s.seqAt k p = s.seqAt k q := by
  rw [← h]
  exact seqAt_congr (cellIndex_add k q)

theorem seqAt_setSeq (s : Mpmc T Θ) (q x p : Nat) :
    (s.setSeq k q x).seqAt k p = if cellIndex k p = cellIndex k q then x else s.seqAt k p := by
  unfold seqAt setSeq
  dsimp only
  split
  · rename_i e
    rw [e, update_self]
  · rename_i e
    rw [update_of_ne e]

theorem dataAt_setSeq (s : Mpmc T Θ) (q x p : Nat) : (s.setSeq k q x).dataAt k p = s.dataAt k p := by
  unfold dataAt setSeq
  dsimp only
  by_cases e : cellIndex k p = cellIndex k q
  · rw [e, update_self]
  · rw [update_of_ne e]

theorem seqAt_setData (s : Mpmc T Θ) (q : Nat) (x : T) (p : Nat) : (s.setData k q x).seqAt k p = s.seqAt k p := by
  unfold seqAt setData
  dsimp only
  by_cases e : cellIndex k p = cellIndex k q
  · rw [e, update_self]
  · rw [update_of_ne e]

theorem dataAt_setData (s : Mpmc T Θ) (q : Nat) (x : T) (p : Nat) :
    (s.setData k q x).dataAt k p = if cellIndex k p = cellIndex k q then x else s.dataAt k p := by
  unfold dataAt setData
  dsimp only
  split
  · rename_i e
    rw [e, update_self]
  · rename_i e
    rw [update_of_ne e]

/-- What holds of a thread's local variables. -/
def Local (k : Nat) (s : Mpmc T Θ) : Pc T → Prop
  | .pushSeq _ pos => pos ≤ s.head
  | .pushCas _ pos => pos ≤ s.head ∧ pos ≤ s.seqAt k pos
  | .pushStore item pos => s.dataAt k pos = item
  | .popSeq pos => pos ≤ s.tail
  | .popCas pos => pos ≤ s.tail ∧ pos + 1 ≤ s.seqAt k pos
  | .popData pos => (pos, s.dataAt k pos) ∈ s.pushes
  | .popStore pos out => (pos, out) ∈ s.pushes
  | _ => True

structure Inv (k : Nat) (s : Mpmc T Θ) : Prop where
  range : s.InRange k
  tail_le : s.tail ≤ s.head
  head_le : s.head ≤ s.tail + SIZE k
  claims : s.claims.length = s.head
  queued : ∀ p, s.tail ≤ p → p < s.head →
    (∃ t v, s.writes t = some (p, v)) ∨ s.seqAt k p = p + 1 ∧ (p, s.dataAt k p) ∈ s.pushes
  free : ∀ p, s.head ≤ p → p < s.tail + SIZE k → s.seqAt k p = p ∨ ∃ t q, s.reads t = some q ∧ q + SIZE k = p
  writing : ∀ t p v, s.writes t = some (p, v) → s.tail ≤ p ∧ p < s.head ∧ s.seqAt k p = p ∧ s.claims[p]? = some v
  reading : ∀ t p, s.reads t = some p → p < s.tail ∧ s.head ≤ p + SIZE k ∧ s.seqAt k p = p + 1
  writes_unique : ∀ t t' p v w, s.writes t = some (p, v) → s.writes t' = some (p, w) → t = t'
  reads_unique : ∀ t t' p, s.reads t = some p → s.reads t' = some p → t = t'
  threads : ∀ t, s.Local k (s.pc t)
  pushed : ∀ x ∈ s.pushes, x.1 < s.head ∧ s.claims[x.1]? = some x.2 ∧ ∀ t v, s.writes t ≠ some (x.1, v)
  popped : ∀ x ∈ s.pops, x ∈ s.pushes ∧ x.1 < s.tail ∧ ∀ t, s.reads t ≠ some x.1
  pushes_nodup : (s.pushes.map Prod.fst).Nodup
  pops_nodup : (s.pops.map Prod.fst).Nodup
  taken : ∀ p < s.tail, p ∈ s.pops.map Prod.fst ∨ ∃ t, s.reads t = some p

theorem Start.inv (hk : k < 64) (h : s.Start) : s.Inv k := by
  obtain ⟨data, rfl⟩ := h
  have hzero : 0 < 9223372036854775808 := by decide
  exact
    { range := ⟨hzero, hzero, fun i hi => Nat.lt_of_lt_of_le hi (SIZE_le hk)⟩
      tail_le := le_rfl
      head_le := Nat.zero_le _
      claims := rfl
      queued := fun p _ hp => absurd hp (Nat.not_lt_zero p)
      free := fun p _ hp => .inl (by
        show cellIndex k p = p
        rw [cellIndex_eq]
        exact Nat.mod_eq_of_lt (by simpa using hp))
      writing := fun _ _ _ hw => (by cases hw)
      reading := fun _ _ hr => (by cases hr)
      writes_unique := fun _ _ _ _ _ hw => (by cases hw)
      reads_unique := fun _ _ _ hr => (by cases hr)
      threads := fun _ => trivial
      pushed := fun _ hx => (by cases hx)
      popped := fun _ hx => (by cases hx)
      pushes_nodup := nodup_nil
      pops_nodup := nodup_nil
      taken := fun p hp => absurd hp (Nat.not_lt_zero p) }

/-! ## Owners -/

theorem Inv.write_write (h : s.Inv k) (hp : s.writes t = some (p, v)) (hq : s.tail ≤ q) (hq' : q < s.tail + SIZE k) (hne : q ≠ p) :
    cellIndex k q ≠ cellIndex k p := by
  obtain ⟨h1, h2, -⟩ := h.writing t p v hp
  have h3 := h.head_le
  exact cellIndex_ne hne (by omega) (by omega)

/-- A pop that is reading at `p` stands for the position one lap later. -/
theorem Inv.read_lap (h : s.Inv k) (hp : s.reads t = some p) (hq : s.tail ≤ q) (hq' : q < s.tail + SIZE k) (hne : q ≠ p + SIZE k) :
    cellIndex k q ≠ cellIndex k p := by
  obtain ⟨h1, h2, -⟩ := h.reading t p hp
  have h3 := h.tail_le
  rw [← cellIndex_add k p]
  exact cellIndex_ne hne (by omega) (by omega)

/-- A cell is not read between its claim and its publication. -/
theorem Inv.write_read (h : s.Inv k) (hp : s.writes t = some (p, v)) (hq : s.reads t' = some q) : cellIndex k p ≠ cellIndex k q := by
  obtain ⟨h1, h2, -⟩ := h.writing t p v hp
  obtain ⟨h3, h4, -⟩ := h.reading t' q hq
  exact h.read_lap hq h1 (h2.trans_le h.head_le) (by omega)

theorem Inv.read_read (h : s.Inv k) (hp : s.reads t = some p) (hq : s.reads t' = some q) (hne : p ≠ q) :
    cellIndex k p ≠ cellIndex k q := by
  obtain ⟨h1, h2, -⟩ := h.reading t p hp
  rw [← cellIndex_add k p]
  exact h.read_lap hq (h.tail_le.trans h2) (by omega) (by omega)

/-- Counters and sequence numbers grow, and no value is lost: what the threads know stays true. -/
theorem Local.mono {s' : Mpmc T Θ} {c : Pc T} (h : s.Local k c) (hh : s.head ≤ s'.head) (ht : s.tail ≤ s'.tail)
    (hs : ∀ p, s.seqAt k p ≤ s'.seqAt k p) (hd : ∀ p, s'.dataAt k p = s.dataAt k p) (hp : s.pushes ⊆ s'.pushes) :
    s'.Local k c := by
  cases c with
  | idle => trivial
  | pushLoad => trivial
  | pushSeq item pos => exact Nat.le_trans h hh
  | pushCas item pos => exact ⟨Nat.le_trans h.1 hh, Nat.le_trans h.2 (hs pos)⟩
  | pushData => trivial
  | pushStore item pos => exact (hd pos).trans h
  | popLoad => trivial
  | popSeq pos => exact Nat.le_trans h ht
  | popCas pos => exact ⟨Nat.le_trans h.1 ht, Nat.le_trans h.2 (hs pos)⟩
  | popData pos =>
    show (pos, s'.dataAt k pos) ∈ s'.pushes
    rw [hd]
    exact hp h
  | popStore pos out => exact hp h

/-- A producer that saw `seq = pos` and finds `head` still at `pos` finds the cell free. -/
theorem Inv.free_of_cas (h2 : 2 ≤ SIZE k) (h : s.Inv k) (hpc : s.pc t = .pushCas v s.head) :
    s.head < s.tail + SIZE k ∧ s.seqAt k s.head = s.head := by
  have hl : s.head ≤ s.seqAt k s.head := by
    have h1 := h.threads t
    rw [hpc] at h1
    exact h1.2
  have hroom : s.head < s.tail + SIZE k := by
    refine lt_of_le_of_ne h.head_le fun hfull => ?_
    -- A full queue: the cell is that of `tail`, one lap behind.
    have hcell : s.seqAt k s.head = s.seqAt k s.tail := seqAt_lap hfull.symm
    rcases h.queued s.tail le_rfl (by omega) with ⟨t', w, hw⟩ | ⟨hseq, -⟩
    · have hseq := (h.writing t' s.tail w hw).2.2.1
      omega
    · omega
  refine ⟨hroom, ?_⟩
  rcases h.free s.head le_rfl hroom with hfree | ⟨t', q, hq, hlap⟩
  · exact hfree
  · have hseq := (h.reading t' q hq).2.2
    have hcell : s.seqAt k s.head = s.seqAt k q := seqAt_lap hlap
    omega

/-- A consumer that saw `seq = pos + 1` and finds `tail` still at `pos` finds the value there. -/
theorem Inv.ready_of_cas (h2 : 2 ≤ SIZE k) (h : s.Inv k) (hpc : s.pc t = .popCas s.tail) :
    s.tail < s.head ∧ s.seqAt k s.tail = s.tail + 1 ∧ (s.tail, s.dataAt k s.tail) ∈ s.pushes := by
  have hl : s.tail + 1 ≤ s.seqAt k s.tail := by
    have h1 := h.threads t
    rw [hpc] at h1
    exact h1.2
  have hsome : s.tail < s.head := by
    refine lt_of_le_of_ne h.tail_le fun hempty => ?_
    -- An empty queue: the cell is free, or still being read one lap behind.
    rcases h.free s.tail hempty.ge (by omega) with hfree | ⟨t', q, hq, hlap⟩
    · omega
    · have hseq := (h.reading t' q hq).2.2
      have hcell : s.seqAt k s.tail = s.seqAt k q := seqAt_lap hlap
      omega
  refine ⟨hsome, ?_⟩
  rcases h.queued s.tail le_rfl hsome with ⟨t', w, hw⟩ | hready
  · have hseq := (h.writing t' s.tail w hw).2.2.1
    omega
  · exact hready

/-- Below 2^63 the signed difference of two counters is that of the numbers. -/
theorem seqDiff_eq {x y : Nat} (hx : x < 9223372036854775808) (hy : y ≤ 9223372036854775808) : seqDiff x y = (x : Int) - y := by
  unfold seqDiff i64
  rw [Int.bmod_sub_bmod, Int.sub_bmod_bmod]
  exact i64_eq ⟨by omega, by omega⟩

theorem seqDiff_eq_zero {x y : Nat} (hx : x < 9223372036854775808) (hy : y ≤ 9223372036854775808) (h : seqDiff x y = 0) : x = y := by
  have hdiff := seqDiff_eq hx hy
  omega

theorem Inv.seqAt_lt (h : s.Inv k) (p : Nat) : s.seqAt k p < 9223372036854775808 := h.range.seq _ (cellIndex_lt k p)

theorem writes_of_pc {c : Pc T} (h : s.pc t = c) : s.writes t = c.writes := congrArg Pc.writes h

theorem reads_of_pc {c : Pc T} (h : s.pc t = c) : s.reads t = c.reads := congrArg Pc.reads h

theorem ne_of_some {α : Type} {f : Θ → Option α} {x : α} (h0 : f t = none) (h : f t' = some x) : t' ≠ t := by
  rintro rfl
  rw [h0] at h
  cases h

/-! ## Steps -/

/-- The cell is nobody else's, so what the others know of theirs stays true. -/
theorem Inv.local_setData (h : s.Inv k) (hown : s.writes t = some (p, v)) (ht' : t' ≠ t) : (s.setData k p v).Local k (s.pc t') := by
  have hdata : ∀ q, cellIndex k q ≠ cellIndex k p → (s.setData k p v).dataAt k q = s.dataAt k q := by
    intro q hq
    rw [dataAt_setData, if_neg hq]
  have hseqs : (s.setData k p v).seqAt k = s.seqAt k := by
    funext q
    exact seqAt_setData s p v q
  have hl := h.threads t'
  cases hc : s.pc t' with
  | idle => trivial
  | pushLoad => trivial
  | pushSeq item pos =>
    rw [hc] at hl
    exact hl
  | pushCas item pos =>
    rw [hc] at hl
    show pos ≤ s.head ∧ pos ≤ (s.setData k p v).seqAt k pos
    rw [hseqs]
    exact hl
  | pushData => trivial
  | pushStore item pos =>
    rw [hc] at hl
    have hw' : s.writes t' = some (pos, item) := writes_of_pc hc
    have hne : pos ≠ p := fun e => ht' (h.writes_unique t' t pos item v hw' (by rw [e]; exact hown))
    obtain ⟨h3, h4, -⟩ := h.writing t' pos item hw'
    exact (hdata pos (h.write_write hown h3 (h4.trans_le h.head_le) hne)).trans hl
  | popLoad => trivial
  | popSeq pos =>
    rw [hc] at hl
    exact hl
  | popCas pos =>
    rw [hc] at hl
    show pos ≤ s.tail ∧ pos + 1 ≤ (s.setData k p v).seqAt k pos
    rw [hseqs]
    exact hl
  | popData pos =>
    rw [hc] at hl
    have hr' : s.reads t' = some pos := reads_of_pc hc
    show (pos, (s.setData k p v).dataAt k pos) ∈ s.pushes
    rw [hdata pos (h.write_read hown hr').symm]
    exact hl
  | popStore pos out =>
    rw [hc] at hl
    exact hl

section

variable [DecidableEq Θ] {x : Nat × T} {s' : Mpmc T Θ}

theorem writes_setPc (s : Mpmc T Θ) (t t' : Θ) (c : Pc T) : (s.setPc t c).writes t' = if t' = t then c.writes else s.writes t' := by
  unfold writes setPc
  dsimp only
  rw [update_apply]
  split <;> rfl

theorem reads_setPc (s : Mpmc T Θ) (t t' : Θ) (c : Pc T) : (s.setPc t c).reads t' = if t' = t then c.reads else s.reads t' := by
  unfold reads setPc
  dsimp only
  rw [update_apply]
  split <;> rfl

theorem writes_cases {c : Pc T} (h : (s.setPc t c).writes t' = some x) :
    t' = t ∧ c.writes = some x ∨ t' ≠ t ∧ s.writes t' = some x := by
  rw [writes_setPc] at h
  split at h
  · exact .inl ⟨‹_›, h⟩
  · exact .inr ⟨‹_›, h⟩

theorem reads_cases {c : Pc T} (h : (s.setPc t c).reads t' = some p) :
    t' = t ∧ c.reads = some p ∨ t' ≠ t ∧ s.reads t' = some p := by
  rw [reads_setPc] at h
  split at h
  · exact .inl ⟨‹_›, h⟩
  · exact .inr ⟨‹_›, h⟩

/-- Who writes after a step of a thread that does not write was writing before. -/
theorem writes_old {c : Pc T} (hc : c.writes = none) (h : (s.setPc t c).writes t' = some x) : t' ≠ t ∧ s.writes t' = some x := by
  rcases writes_cases h with ⟨-, he⟩ | h
  · rw [hc] at he
    cases he
  · exact h

theorem reads_old {c : Pc T} (hc : c.reads = none) (h : (s.setPc t c).reads t' = some p) : t' ≠ t ∧ s.reads t' = some p := by
  rcases reads_cases h with ⟨-, he⟩ | h
  · rw [hc] at he
    cases he
  · exact h

theorem writes_other (c : Pc T) (h : s.writes t' = some x) (hne : t' ≠ t) : (s.setPc t c).writes t' = some x := by
  rw [writes_setPc, if_neg hne]
  exact h

theorem reads_other (c : Pc T) (h : s.reads t' = some p) (hne : t' ≠ t) : (s.setPc t c).reads t' = some p := by
  rw [reads_setPc, if_neg hne]
  exact h

/-- A thread moved to `c`, and what the others know stays true. -/
theorem threads_setPc {c : Pc T} (hc : s'.Local k c) (h : ∀ t', t' ≠ t → s'.Local k (s.pc t')) (t' : Θ) :
    s'.Local k ((s.setPc t c).pc t') := by
  show s'.Local k (update s.pc t c t')
  rw [update_apply]
  split
  · exact hc
  · exact h t' ‹_›

/-- A thread moves on without claiming or giving up a position. -/
theorem Inv.quiet {c : Pc T} (h : s.Inv k) (hw : c.writes = s.writes t) (hr : c.reads = s.reads t) (hl : s.Local k c) :
    (s.setPc t c).Inv k := by
  have hwrites : (s.setPc t c).writes = s.writes := by
    funext t'
    rw [writes_setPc]
    split
    · rename_i e
      rw [e, hw]
    · rfl
  have hreads : (s.setPc t c).reads = s.reads := by
    funext t'
    rw [reads_setPc]
    split
    · rename_i e
      rw [e, hr]
    · rfl
  exact
    { range := ⟨h.range.head, h.range.tail, h.range.seq⟩
      tail_le := h.tail_le
      head_le := h.head_le
      claims := h.claims
      queued := by rw [hwrites]; exact h.queued
      free := by rw [hreads]; exact h.free
      writing := by rw [hwrites]; exact h.writing
      reading := by rw [hreads]; exact h.reading
      writes_unique := by rw [hwrites]; exact h.writes_unique
      reads_unique := by rw [hreads]; exact h.reads_unique
      threads := threads_setPc hl fun t' _ => h.threads t'
      pushed := by rw [hwrites]; exact h.pushed
      popped := by rw [hreads]; exact h.popped
      pushes_nodup := h.pushes_nodup
      pops_nodup := h.pops_nodup
      taken := by rw [hreads]; exact h.taken }

theorem Inv.pushClaim (h2 : 2 ≤ SIZE k) (h : s.Inv k) (hpc : s.pc t = .pushCas v s.head)
    (hr : ({ s.setPc t (.pushData v s.head) with head := s.head + 1, claims := s.claims ++ [v] } : Mpmc T Θ).InRange k) :
    ({ s.setPc t (.pushData v s.head) with head := s.head + 1, claims := s.claims ++ [v] } : Mpmc T Θ).Inv k := by
  obtain ⟨hroom, hseq⟩ := h.free_of_cas h2 hpc
  have hw0 : s.writes t = none := writes_of_pc hpc
  have hr0 : s.reads t = none := reads_of_pc hpc
  have hclaims : ∀ {p : Nat} {w : T}, s.claims[p]? = some w → (s.claims ++ [v])[p]? = some w := by
    intro p w hp
    rw [List.getElem?_append_left (List.getElem?_eq_some_iff.mp hp).1]
    exact hp
  refine
    { range := hr, tail_le := h.tail_le.trans (Nat.le_succ _), head_le := hroom, claims := ?_, queued := ?_, free := ?_,
      writing := ?_, reading := ?_, writes_unique := ?_, reads_unique := ?_, threads := ?_, pushed := ?_, popped := ?_,
      pushes_nodup := h.pushes_nodup, pops_nodup := h.pops_nodup, taken := ?_ }
  · rw [length_append, h.claims]
    rfl
  · intro p hp1 hp2
    by_cases e : p = s.head
    · refine .inl ⟨t, v, ?_⟩
      rw [e]
      exact (writes_setPc s t t _).trans (if_pos rfl)
    · have hp3 : p < s.head + 1 := hp2
      rcases h.queued p hp1 (by omega) with ⟨t', w, hw⟩ | hq
      · exact .inl ⟨t', w, writes_other _ hw (ne_of_some hw0 hw)⟩
      · exact .inr hq
  · intro p hp1 hp2
    rcases h.free p (Nat.le_of_succ_le hp1) hp2 with hf | ⟨t', q, hq, hlap⟩
    · exact .inl hf
    · exact .inr ⟨t', q, reads_other _ hq (ne_of_some hr0 hq), hlap⟩
  · intro t' p w hw
    rcases writes_cases hw with ⟨-, he⟩ | ⟨-, hw⟩
    · cases he
      refine ⟨h.tail_le, Nat.lt_succ_self _, hseq, ?_⟩
      rw [← h.claims, List.getElem?_concat_length]
    · obtain ⟨h3, h4, h5, h6⟩ := h.writing t' p w hw
      exact ⟨h3, h4.trans (Nat.lt_succ_self _), h5, hclaims h6⟩
  · intro t' p hp
    obtain ⟨-, hp⟩ := reads_old rfl hp
    obtain ⟨h3, h4, h5⟩ := h.reading t' p hp
    refine ⟨h3, ?_, h5⟩
    -- The cell just claimed is not the one being read.
    refine Nat.lt_of_le_of_ne h4 fun hlap => ?_
    have hcell : s.seqAt k s.head = s.seqAt k p := seqAt_lap hlap.symm
    omega
  · intro t1 t2 p w1 w2 hw1 hw2
    rcases writes_cases hw1 with ⟨e1, he1⟩ | ⟨-, hw1⟩ <;> rcases writes_cases hw2 with ⟨e2, he2⟩ | ⟨-, hw2⟩
    · rw [e1, e2]
    · cases he1
      exact absurd (h.writing t2 _ w2 hw2).2.1 (lt_irrefl _)
    · cases he2
      exact absurd (h.writing t1 _ w1 hw1).2.1 (lt_irrefl _)
    · exact h.writes_unique t1 t2 p w1 w2 hw1 hw2
  · intro t1 t2 p hp₁ hp₂
    exact h.reads_unique t1 t2 p (reads_old rfl hp₁).2 (reads_old rfl hp₂).2
  · exact threads_setPc trivial fun t' _ =>
      Local.mono (h.threads t') (Nat.le_succ _) le_rfl (fun _ => le_rfl) (fun _ => rfl) fun _ hx => hx
  · intro x hx
    obtain ⟨h3, h4, h5⟩ := h.pushed x hx
    refine ⟨h3.trans (Nat.lt_succ_self _), hclaims h4, fun t' w hw => ?_⟩
    rcases writes_cases hw with ⟨-, he⟩ | ⟨-, hw⟩
    · have he' := congrArg Prod.fst (Option.some.inj he)
      exact absurd h3 (by rw [← he']; exact lt_irrefl _)
    · exact h5 t' w hw
  · intro x hx
    obtain ⟨h3, h4, h5⟩ := h.popped x hx
    exact ⟨h3, h4, fun t' ht' => h5 t' (reads_old rfl ht').2⟩
  · intro p hp
    rcases h.taken p hp with hpop | ⟨t', ht'⟩
    · exact .inl hpop
    · exact .inr ⟨t', reads_other _ ht' (ne_of_some hr0 ht')⟩

theorem Inv.popClaim (h2 : 2 ≤ SIZE k) (h : s.Inv k) (hpc : s.pc t = .popCas s.tail)
    (hr : ({ s.setPc t (.popData s.tail) with tail := s.tail + 1 } : Mpmc T Θ).InRange k) :
    ({ s.setPc t (.popData s.tail) with tail := s.tail + 1 } : Mpmc T Θ).Inv k := by
  obtain ⟨hsome, hseq, hready⟩ := h.ready_of_cas h2 hpc
  have hhead := h.head_le
  have hw0 : s.writes t = none := writes_of_pc hpc
  have hr0 : s.reads t = none := reads_of_pc hpc
  have hown : ({ s.setPc t (.popData s.tail) with tail := s.tail + 1 } : Mpmc T Θ).reads t = some s.tail :=
    (reads_setPc s t t _).trans (if_pos rfl)
  refine
    { range := hr, tail_le := hsome, head_le := ?_, claims := h.claims, queued := ?_, free := ?_, writing := ?_,
      reading := ?_, writes_unique := ?_, reads_unique := ?_, threads := ?_, pushed := ?_, popped := ?_,
      pushes_nodup := h.pushes_nodup, pops_nodup := h.pops_nodup, taken := ?_ }
  · show s.head ≤ s.tail + 1 + SIZE k
    omega
  · intro p hp1 hp2
    rcases h.queued p (Nat.le_of_succ_le hp1) hp2 with ⟨t', w, hw⟩ | hq
    · exact .inl ⟨t', w, writes_other _ hw (ne_of_some hw0 hw)⟩
    · exact .inr hq
  · intro p hp1 hp2
    by_cases e : p = s.tail + SIZE k
    · exact .inr ⟨t, s.tail, hown, e.symm⟩
    · have hp3 : p < s.tail + 1 + SIZE k := hp2
      rcases h.free p hp1 (by omega) with hf | ⟨t', q, hq, hlap⟩
      · exact .inl hf
      · exact .inr ⟨t', q, reads_other _ hq (ne_of_some hr0 hq), hlap⟩
  · intro t' p w hw
    obtain ⟨-, hw⟩ := writes_old rfl hw
    obtain ⟨h3, h4, h5, h6⟩ := h.writing t' p w hw
    refine ⟨?_, h4, h5, h6⟩
    -- The value at `tail` is there, so nobody is writing it.
    refine Nat.lt_of_le_of_ne h3 fun e => ?_
    rw [← e] at h5
    omega
  · intro t' p hp
    rcases reads_cases hp with ⟨-, he⟩ | ⟨-, hp⟩
    · cases he
      exact ⟨Nat.lt_succ_self _, hhead, hseq⟩
    · obtain ⟨h3, h4, h5⟩ := h.reading t' p hp
      exact ⟨h3.trans (Nat.lt_succ_self _), h4, h5⟩
  · intro t1 t2 p w1 w2 hw1 hw2
    exact h.writes_unique t1 t2 p w1 w2 (writes_old rfl hw1).2 (writes_old rfl hw2).2
  · intro t1 t2 p hp₁ hp₂
    rcases reads_cases hp₁ with ⟨e1, he1⟩ | ⟨-, hp₁⟩ <;> rcases reads_cases hp₂ with ⟨e2, he2⟩ | ⟨-, hp₂⟩
    · rw [e1, e2]
    · cases he1
      exact absurd (h.reading t2 _ hp₂).1 (lt_irrefl _)
    · cases he2
      exact absurd (h.reading t1 _ hp₁).1 (lt_irrefl _)
    · exact h.reads_unique t1 t2 p hp₁ hp₂
  · exact threads_setPc hready fun t' _ =>
      Local.mono (h.threads t') le_rfl (Nat.le_succ _) (fun _ => le_rfl) (fun _ => rfl) fun _ hx => hx
  · intro x hx
    obtain ⟨h3, h4, h5⟩ := h.pushed x hx
    exact ⟨h3, h4, fun t' w hw => h5 t' w (writes_old rfl hw).2⟩
  · intro x hx
    obtain ⟨h3, h4, h5⟩ := h.popped x hx
    refine ⟨h3, h4.trans (Nat.lt_succ_self _), fun t' ht' => ?_⟩
    rcases reads_cases ht' with ⟨-, he⟩ | ⟨-, ht'⟩
    · have he' : s.tail = x.1 := Option.some.inj he
      omega
    · exact h5 t' ht'
  · intro p hp
    by_cases e : p = s.tail
    · exact .inr ⟨t, by rw [e]; exact hown⟩
    · have hp' : p < s.tail + 1 := hp
      rcases h.taken p (by omega) with hpop | ⟨t', ht'⟩
      · exact .inl hpop
      · exact .inr ⟨t', reads_other _ ht' (ne_of_some hr0 ht')⟩

/-- The data is copied into a claimed cell. -/
theorem Inv.copyIn (h : s.Inv k) (hpc : s.pc t = .pushData v p) : ((s.setData k p v).setPc t (.pushStore v p)).Inv k := by
  have hown : s.writes t = some (p, v) := writes_of_pc hpc
  obtain ⟨htail, hhead, hseq, -⟩ := h.writing t p v hown
  have hdata : ∀ q, cellIndex k q ≠ cellIndex k p → (s.setData k p v).dataAt k q = s.dataAt k q := by
    intro q hq
    rw [dataAt_setData, if_neg hq]
  have hseqs : (s.setData k p v).seqAt k = s.seqAt k := by
    funext q
    exact seqAt_setData s p v q
  have hinv : (s.setData k p v).Inv k := by
    refine { h with range := ⟨h.range.head, h.range.tail, ?_⟩, queued := ?_, free := ?_, writing := ?_, reading := ?_, threads := ?_ }
    · intro i hi
      show (update s.cells (cellIndex k p) { s.cells (cellIndex k p) with data := v } i).seq < _
      rw [update_apply]
      split
      · exact h.range.seq _ (cellIndex_lt k p)
      · exact h.range.seq i hi
    · intro q hq1 hq2
      rcases h.queued q hq1 hq2 with hw | ⟨hq3, hq4⟩
      · exact .inl hw
      · have hne : q ≠ p := by
          rintro rfl
          omega
        refine .inr ?_
        rw [hseqs, hdata q (h.write_write hown hq1 (hq2.trans_le h.head_le) hne)]
        exact ⟨hq3, hq4⟩
    · rw [hseqs]
      exact h.free
    · rw [hseqs]
      exact h.writing
    · rw [hseqs]
      exact h.reading
    · intro t'
      by_cases e : t' = t
      · show (s.setData k p v).Local k (s.pc t')
        rw [e, hpc]
        trivial
      · exact h.local_setData hown e
  refine hinv.quiet hown.symm (reads_of_pc hpc).symm ?_
  show (s.setData k p v).dataAt k p = v
  rw [dataAt_setData, if_pos rfl]

/-- A push makes its value visible. -/
theorem Inv.publish (h : s.Inv k) (hpc : s.pc t = .pushStore v p)
    (hr : ({ (s.setSeq k p (p + 1)).setPc t .idle with pushes := (p, v) :: s.pushes } : Mpmc T Θ).InRange k) :
    ({ (s.setSeq k p (p + 1)).setPc t .idle with pushes := (p, v) :: s.pushes } : Mpmc T Θ).Inv k := by
  have hown : s.writes t = some (p, v) := writes_of_pc hpc
  have hr0 : s.reads t = none := reads_of_pc hpc
  have hitem : s.dataAt k p = v := by
    have hl := h.threads t
    rw [hpc] at hl
    exact hl
  obtain ⟨htail, hhead, hseq, hclaim⟩ := h.writing t p v hown
  have hnew : (s.setSeq k p (p + 1)).seqAt k p = p + 1 := by rw [seqAt_setSeq, if_pos rfl]
  have hseqs : ∀ q, cellIndex k q ≠ cellIndex k p → (s.setSeq k p (p + 1)).seqAt k q = s.seqAt k q := by
    intro q hq
    rw [seqAt_setSeq, if_neg hq]
  have hgrow : ∀ q, s.seqAt k q ≤ (s.setSeq k p (p + 1)).seqAt k q := by
    intro q
    rw [seqAt_setSeq]
    split
    · rename_i e
      rw [seqAt_congr e, hseq]
      exact Nat.le_succ p
    · exact le_rfl
  have hdata : ∀ q, (s.setSeq k p (p + 1)).dataAt k q = s.dataAt k q := dataAt_setSeq s p (p + 1)
  refine
    { range := hr, tail_le := h.tail_le, head_le := h.head_le, claims := h.claims, queued := ?_, free := ?_, writing := ?_,
      reading := ?_, writes_unique := ?_, reads_unique := ?_, threads := ?_, pushed := ?_, popped := ?_,
      pushes_nodup := ?_, pops_nodup := h.pops_nodup, taken := ?_ }
  · intro q hq1 hq2
    by_cases e : q = p
    · refine .inr ⟨?_, ?_⟩
      · rw [e]
        exact hnew
      · show (q, (s.setSeq k p (p + 1)).dataAt k q) ∈ (p, v) :: s.pushes
        rw [hdata, e, hitem]
        exact mem_cons_self
    · rcases h.queued q hq1 hq2 with ⟨t', w, hw⟩ | ⟨hq3, hq4⟩
      · refine .inl ⟨t', w, writes_other _ hw ?_⟩
        rintro rfl
        rw [hown] at hw
        cases hw
        exact e rfl
      · refine .inr ⟨?_, ?_⟩
        · exact (hseqs q (h.write_write hown hq1 (hq2.trans_le h.head_le) e)).trans hq3
        · show (q, (s.setSeq k p (p + 1)).dataAt k q) ∈ (p, v) :: s.pushes
          rw [hdata]
          exact mem_cons_of_mem _ hq4
  · intro q hq1 hq2
    have hq3 : s.head ≤ q := hq1
    rcases h.free q hq1 hq2 with hf | ⟨t', q', hq', hlap⟩
    · exact .inl ((hseqs q (h.write_write hown (h.tail_le.trans hq1) hq2 (by omega))).trans hf)
    · exact .inr ⟨t', q', reads_other _ hq' (ne_of_some hr0 hq'), hlap⟩
  · intro t' q w hw
    obtain ⟨ht', hw⟩ := writes_old rfl hw
    obtain ⟨h3, h4, h5, h6⟩ := h.writing t' q w hw
    have hne : q ≠ p := fun e => ht' (h.writes_unique t' t q w v hw (by rw [e]; exact hown))
    exact ⟨h3, h4, (hseqs q (h.write_write hown h3 (h4.trans_le h.head_le) hne)).trans h5, h6⟩
  · intro t' q hq
    obtain ⟨-, hq⟩ := reads_old rfl hq
    obtain ⟨h3, h4, h5⟩ := h.reading t' q hq
    exact ⟨h3, h4, (hseqs q (h.write_read hown hq).symm).trans h5⟩
  · intro t1 t2 q w1 w2 hw1 hw2
    exact h.writes_unique t1 t2 q w1 w2 (writes_old rfl hw1).2 (writes_old rfl hw2).2
  · intro t1 t2 q hq₁ hq₂
    exact h.reads_unique t1 t2 q (reads_old rfl hq₁).2 (reads_old rfl hq₂).2
  · exact threads_setPc trivial fun t' _ =>
      Local.mono (h.threads t') le_rfl le_rfl hgrow hdata fun _ hx => mem_cons_of_mem _ hx
  · intro x hx
    rcases mem_cons.mp hx with rfl | hx
    · refine ⟨hhead, hclaim, fun t' w hw => ?_⟩
      obtain ⟨ht', hw⟩ := writes_old rfl hw
      exact ht' (h.writes_unique t' t p w v hw hown)
    · obtain ⟨h3, h4, h5⟩ := h.pushed x hx
      exact ⟨h3, h4, fun t' w hw => h5 t' w (writes_old rfl hw).2⟩
  · intro x hx
    obtain ⟨h3, h4, h5⟩ := h.popped x hx
    exact ⟨mem_cons_of_mem _ h3, h4, fun t' ht' => h5 t' (reads_old rfl ht').2⟩
  · -- A position whose push is under way has no finished push.
    refine nodup_cons.mpr ⟨fun hmem => ?_, h.pushes_nodup⟩
    obtain ⟨x, hx, rfl⟩ := mem_map.mp hmem
    exact (h.pushed x hx).2.2 t v hown
  · intro q hq
    rcases h.taken q hq with hpop | ⟨t', ht'⟩
    · exact .inl hpop
    · exact .inr ⟨t', reads_other _ ht' (ne_of_some hr0 ht')⟩

/-- A pop gives its cell to the next lap. -/
theorem Inv.release (h2 : 2 ≤ SIZE k) (h : s.Inv k) (hpc : s.pc t = .popStore p v)
    (hr : ({ (s.setSeq k p (p + SIZE k)).setPc t .idle with pops := (p, v) :: s.pops } : Mpmc T Θ).InRange k) :
    ({ (s.setSeq k p (p + SIZE k)).setPc t .idle with pops := (p, v) :: s.pops } : Mpmc T Θ).Inv k := by
  have hown : s.reads t = some p := reads_of_pc hpc
  have hw0 : s.writes t = none := writes_of_pc hpc
  have hitem : (p, v) ∈ s.pushes := by
    have hl := h.threads t
    rw [hpc] at hl
    exact hl
  obtain ⟨htail, hhead, hseq⟩ := h.reading t p hown
  have hseqs : ∀ q, cellIndex k q ≠ cellIndex k p → (s.setSeq k p (p + SIZE k)).seqAt k q = s.seqAt k q := by
    intro q hq
    rw [seqAt_setSeq, if_neg hq]
  have hgrow : ∀ q, s.seqAt k q ≤ (s.setSeq k p (p + SIZE k)).seqAt k q := by
    intro q
    rw [seqAt_setSeq]
    split
    · rename_i e
      rw [seqAt_congr e, hseq]
      omega
    · exact le_rfl
  have hdata : ∀ q, (s.setSeq k p (p + SIZE k)).dataAt k q = s.dataAt k q := dataAt_setSeq s p (p + SIZE k)
  refine
    { range := hr, tail_le := h.tail_le, head_le := h.head_le, claims := h.claims, queued := ?_, free := ?_, writing := ?_,
      reading := ?_, writes_unique := ?_, reads_unique := ?_, threads := ?_, pushed := ?_, popped := ?_,
      pushes_nodup := h.pushes_nodup, pops_nodup := ?_, taken := ?_ }
  · intro q hq1 hq2
    have hq3 : q < s.head := hq2
    rcases h.queued q hq1 hq2 with ⟨t', w, hw⟩ | ⟨hq4, hq5⟩
    · exact .inl ⟨t', w, writes_other _ hw (ne_of_some hw0 hw)⟩
    · refine .inr ⟨?_, ?_⟩
      · exact (hseqs q (h.read_lap hown hq1 (hq3.trans_le h.head_le) (by omega))).trans hq4
      · show (q, (s.setSeq k p (p + SIZE k)).dataAt k q) ∈ s.pushes
        rw [hdata]
        exact hq5
  · intro q hq1 hq2
    by_cases e : q = p + SIZE k
    · refine .inl ?_
      show (s.setSeq k p (p + SIZE k)).seqAt k q = q
      rw [e, seqAt_setSeq, if_pos (cellIndex_add k p)]
    · rcases h.free q hq1 hq2 with hf | ⟨t', q', hq', hlap⟩
      · exact .inl ((hseqs q (h.read_lap hown (h.tail_le.trans hq1) hq2 e)).trans hf)
      · refine .inr ⟨t', q', reads_other _ hq' ?_, hlap⟩
        rintro rfl
        rw [hown] at hq'
        cases hq'
        exact e hlap.symm
  · intro t' q w hw
    obtain ⟨-, hw⟩ := writes_old rfl hw
    obtain ⟨h3, h4, h5, h6⟩ := h.writing t' q w hw
    exact ⟨h3, h4, (hseqs q (h.write_read hw hown)).trans h5, h6⟩
  · intro t' q hq
    obtain ⟨ht', hq⟩ := reads_old rfl hq
    obtain ⟨h3, h4, h5⟩ := h.reading t' q hq
    have hne : q ≠ p := fun e => ht' (h.reads_unique t' t q hq (by rw [e]; exact hown))
    exact ⟨h3, h4, (hseqs q (h.read_read hq hown hne)).trans h5⟩
  · intro t1 t2 q w1 w2 hw1 hw2
    exact h.writes_unique t1 t2 q w1 w2 (writes_old rfl hw1).2 (writes_old rfl hw2).2
  · intro t1 t2 q hq₁ hq₂
    exact h.reads_unique t1 t2 q (reads_old rfl hq₁).2 (reads_old rfl hq₂).2
  · exact threads_setPc trivial fun t' _ => Local.mono (h.threads t') le_rfl le_rfl hgrow hdata fun _ hx => hx
  · intro x hx
    obtain ⟨h3, h4, h5⟩ := h.pushed x hx
    exact ⟨h3, h4, fun t' w hw => h5 t' w (writes_old rfl hw).2⟩
  · intro x hx
    rcases mem_cons.mp hx with rfl | hx
    · refine ⟨hitem, htail, fun t' ht' => ?_⟩
      obtain ⟨hne, ht'⟩ := reads_old rfl ht'
      exact hne (h.reads_unique t' t p ht' hown)
    · obtain ⟨h3, h4, h5⟩ := h.popped x hx
      exact ⟨h3, h4, fun t' ht' => h5 t' (reads_old rfl ht').2⟩
  · refine nodup_cons.mpr ⟨fun hmem => ?_, h.pops_nodup⟩
    obtain ⟨x, hx, rfl⟩ := mem_map.mp hmem
    exact (h.popped x hx).2.2 t hown
  · intro q hq
    rcases h.taken q hq with hpop | ⟨t', ht'⟩
    · exact .inl (mem_cons_of_mem _ hpop)
    · by_cases e : t' = t
      · rw [e, hown] at ht'
        cases ht'
        exact .inl mem_cons_self
      · exact .inr ⟨t', reads_other _ ht' e⟩

theorem Inv.advance {spurious : Bool} (hk : 1 ≤ k) (hk' : k < 64) (h : s.Inv k) (hs : s.advance k t spurious = some s')
    (hr : s'.InRange k) : s'.Inv k := by
  have h2 := two_le_SIZE hk
  have hsize := SIZE_le hk'
  have hhead := h.range.head
  have htail := h.range.tail
  have hl := h.threads t
  have hw : s.writes t = (s.pc t).writes := rfl
  have hrd : s.reads t = (s.pc t).reads := rfl
  unfold Mpmc.advance at hs
  cases hc : s.pc t with
  | idle =>
    rw [hc] at hs
    cases hs
  | pushLoad item =>
    rw [hc] at hs hw hrd
    cases hs
    exact h.quiet hw.symm hrd.symm le_rfl
  | pushSeq item pos =>
    rw [hc] at hs hw hrd hl
    dsimp only at hs
    have hpos : pos ≤ s.head := hl
    split at hs
    · rename_i hd
      cases hs
      exact h.quiet hw.symm hrd.symm ⟨hl, (seqDiff_eq_zero (h.seqAt_lt pos) (by omega) hd).ge⟩
    · split at hs <;> cases hs <;> exact h.quiet hw.symm hrd.symm trivial
  | pushCas item pos =>
    rw [hc] at hs hw hrd
    dsimp only at hs
    split at hs
    · rename_i hcas
      obtain ⟨rfl, -⟩ := hcas
      rw [uint64_eq (by omega)] at hs
      cases hs
      exact h.pushClaim h2 hc hr
    · cases hs
      exact h.quiet hw.symm hrd.symm le_rfl
  | pushData item pos =>
    rw [hc] at hs
    cases hs
    exact h.copyIn hc
  | pushStore item pos =>
    rw [hc] at hs hw
    have hpos := (h.writing t pos item hw).2.1
    dsimp only at hs
    rw [uint64_eq (by omega)] at hs
    cases hs
    exact h.publish hc hr
  | popLoad =>
    rw [hc] at hs hw hrd
    cases hs
    exact h.quiet hw.symm hrd.symm le_rfl
  | popSeq pos =>
    rw [hc] at hs hw hrd hl
    dsimp only at hs
    have hpos : pos ≤ s.tail := hl
    rw [uint64_eq (by omega)] at hs
    split at hs
    · rename_i hd
      cases hs
      exact h.quiet hw.symm hrd.symm ⟨hl, (seqDiff_eq_zero (h.seqAt_lt pos) (by omega) hd).ge⟩
    · split at hs <;> cases hs <;> exact h.quiet hw.symm hrd.symm trivial
  | popCas pos =>
    rw [hc] at hs hw hrd
    dsimp only at hs
    split at hs
    · rename_i hcas
      obtain ⟨rfl, -⟩ := hcas
      rw [uint64_eq (by omega)] at hs
      cases hs
      exact h.popClaim h2 hc hr
    · cases hs
      exact h.quiet hw.symm hrd.symm le_rfl
  | popData pos =>
    rw [hc] at hs hw hrd hl
    cases hs
    exact h.quiet hw.symm hrd.symm hl
  | popStore pos out =>
    rw [hc] at hs hrd
    have hpos := (h.reading t pos hrd).1
    dsimp only at hs
    rw [uint64_eq (by omega)] at hs
    cases hs
    exact h.release h2 hc hr

theorem Inv.step (hk : 1 ≤ k) (hk' : k < 64) (h : s.Inv k) (hs : s.Step k s') : s'.Inv k := by
  obtain ⟨⟨e, he⟩, hr⟩ := hs
  cases e with
  | push t item =>
    rw [exec] at he
    split at he
    · rename_i hc
      cases he
      exact h.quiet (writes_of_pc hc).symm (reads_of_pc hc).symm trivial
    · cases he
  | pop t =>
    rw [exec] at he
    split at he
    · rename_i hc
      cases he
      exact h.quiet (writes_of_pc hc).symm (reads_of_pc hc).symm trivial
    · cases he
  | step t spurious => exact h.advance hk hk' he hr

end

/-! ## First in, first out -/

structure Fifo (k : Nat) (s : Mpmc T Θ) : Prop where
  /-- No position is pushed or popped twice. -/
  push_once : (s.pushes.map Prod.fst).Nodup
  pop_once : (s.pops.map Prod.fst).Nodup
  /-- What is popped at a position was pushed there, as what was claimed there. -/
  pushed : ∀ x ∈ s.pops, x ∈ s.pushes
  claimed : ∀ x ∈ s.pushes, s.claims[x.1]? = some x.2
  /-- A value that was pushed and not popped is in its cell, or in the hands of a pop. -/
  kept : ∀ x ∈ s.pushes, x ∈ s.pops ∨ (∃ t, s.pc t = .popStore x.1 x.2) ∨ s.seqAt k x.1 = x.1 + 1 ∧ s.dataAt k x.1 = x.2
  /-- No cell is read between its claim and its publication, and no two threads are at one cell. -/
  unread : ∀ t t' p q v, s.writes t = some (p, v) → s.reads t' = some q → cellIndex k p ≠ cellIndex k q
  one_writer : ∀ t t' p q v w, s.writes t = some (p, v) → s.writes t' = some (q, w) → t ≠ t' → cellIndex k p ≠ cellIndex k q
  one_reader : ∀ t t' p q, s.reads t = some p → s.reads t' = some q → t ≠ t' → cellIndex k p ≠ cellIndex k q
  bounded : s.held.card ≤ SIZE k

/-- Of the finished pushes, one is at a position. -/
theorem Inv.push_eq (h : s.Inv k) {x y : Nat × T} (hx : x ∈ s.pushes) (hy : y ∈ s.pushes) (he : x.1 = y.1) : x = y :=
  inj_on_of_nodup_map h.pushes_nodup hx hy he

theorem Inv.kept (h : s.Inv k) {x : Nat × T} (hx : x ∈ s.pushes) :
    x ∈ s.pops ∨ (∃ t, s.pc t = .popStore x.1 x.2) ∨ s.seqAt k x.1 = x.1 + 1 ∧ s.dataAt k x.1 = x.2 := by
  obtain ⟨hhead, -, hnone⟩ := h.pushed x hx
  by_cases ht : x.1 < s.tail
  · rcases h.taken x.1 ht with hpop | ⟨t, hread⟩
    · obtain ⟨y, hy, he⟩ := mem_map.mp hpop
      rw [h.push_eq hx (h.popped y hy).1 he.symm]
      exact .inl hy
    · have hl := h.threads t
      have hseq := (h.reading t x.1 hread).2.2
      unfold reads at hread
      cases hc : s.pc t with
      | popData pos =>
        rw [hc] at hread hl
        cases hread
        exact .inr (.inr ⟨hseq, congrArg Prod.snd (h.push_eq hl hx rfl)⟩)
      | popStore pos out =>
        rw [hc] at hread hl
        cases hread
        have he := congrArg Prod.snd (h.push_eq hl hx rfl)
        exact .inr (.inl ⟨t, by rw [hc, ← he]⟩)
      | _ =>
        rw [hc] at hread
        cases hread
  · rcases h.queued x.1 (by omega) hhead with ⟨t, w, hw⟩ | ⟨hseq, hmem⟩
    · exact absurd hw (hnone t w)
    · exact .inr (.inr ⟨hseq, congrArg Prod.snd (h.push_eq hmem hx rfl)⟩)

theorem Inv.held_card (h : s.Inv k) : s.held.card ≤ SIZE k := by
  have hsub : s.held ⊆ Finset.Ico (s.head - SIZE k) s.head := by
    intro p hp
    obtain ⟨hrange, hnot⟩ := Finset.mem_filter.mp hp
    have hlt := Finset.mem_range.mp hrange
    have hhead := h.head_le
    refine Finset.mem_Ico.mpr ⟨?_, hlt⟩
    by_cases ht : p < s.tail
    · rcases h.taken p ht with hpop | ⟨t, hread⟩
      · exact absurd hpop hnot
      · have h1 := (h.reading t p hread).2.1
        omega
    · omega
  refine (Finset.card_le_card hsub).trans ?_
  rw [Nat.card_Ico]
  omega

theorem Inv.fifo (h : s.Inv k) : s.Fifo k where
  push_once := h.pushes_nodup
  pop_once := h.pops_nodup
  pushed := fun x hx => (h.popped x hx).1
  claimed := fun x hx => (h.pushed x hx).2.1
  kept := fun _ hx => h.kept hx
  unread := fun _ _ _ _ _ hp hq => h.write_read hp hq
  one_writer := by
    intro t t' p q v w hp hq hne
    obtain ⟨h1, h2, -⟩ := h.writing t p v hp
    refine h.write_write hq h1 (h2.trans_le h.head_le) fun e => hne ?_
    exact h.writes_unique t t' p v w hp (by rw [e]; exact hq)
  one_reader := by
    intro t t' p q hp hq hne
    exact h.read_read hp hq fun e => hne (h.reads_unique t t' p hp (by rw [e]; exact hq))
  bounded := h.held_card

end HftLab.Lockfree.Mpmc

namespace HftLab.Lockfree

open Lib

/-- In every interleaving of any number of producers and consumers, with at least two cells. -/
theorem mpmc_fifo {T Θ : Type} [DecidableEq Θ] (k : Nat) (hk : 1 ≤ k) (hk' : k < 64) {s : Mpmc T Θ}
    (h : Reachable Mpmc.Start (Mpmc.Step k) s) : s.Fifo k := by
  have hinv : s.Inv k := h.invariant (fun _ hs => hs.inv hk') fun _ _ hs hstep => hs.step hk hk' hstep
  exact hinv.fifo

/-- Two producers meet at one position; a consumer pops between their stores. -/
def samplePushes : List (MpmcEvent Nat (Fin 3)) :=
  [.push 0 7, .push 1 8, .step 0 false, .step 1 false, .step 0 false, .step 1 false, .step 1 false, .step 0 false,
    .step 1 false, .step 1 false, .pop 2, .step 2 false, .step 2 false, .step 2 true, .step 2 false, .step 2 false,
    .step 2 false, .step 2 false, .step 0 false, .step 0 false]

/-- A step within the range. -/
def nextInRange (s : Mpmc Nat (Fin 3)) (e : MpmcEvent Nat (Fin 3)) : Option (Mpmc Nat (Fin 3)) :=
  (s.exec 1 e).bind fun s' => if s'.InRange 1 then some s' else none

theorem mpmc_fifo_sample : ∃ s : Mpmc Nat (Fin 3), s.pops = [(0, 8)] ∧ s.claims = [8, 7] ∧ s.Fifo 1 := by
  have hrun : (runEvents nextInRange samplePushes { cells := fun i => ⟨i, 0⟩ }).map (fun s => (s.pops, s.claims)) =
      some ([(0, 8)], [8, 7]) := by
    decide +kernel
  obtain ⟨s, hs, hval⟩ := Option.map_eq_some_iff.mp hrun
  obtain ⟨hpops, hclaims⟩ := Prod.mk.inj hval
  refine ⟨s, hpops, hclaims, mpmc_fifo 1 le_rfl (by decide) (.run ?_ samplePushes (.start ⟨fun _ => 0, rfl⟩) hs)⟩
  intro s e s' h
  obtain ⟨x, hx, h⟩ := Option.bind_eq_some_iff.mp h
  split at h
  · rename_i hr
    cases h
    exact ⟨⟨e, hx⟩, hr⟩
  · cases h

end HftLab.Lockfree
