/-
  HftLab.Multicast.Agreement — three trackers of one feed agree.

  Fed the same numbers, `GapRecovery` keeps what is missing, `ContiguousTracker` what came too early and
  `ReorderBuffer` the early packets themselves. Each is a function of the set of received numbers: below `expected`
  the missing ones are those not received (`GapRecovery.Knows`), and the two others stand at the frontier, the first
  number not received (`Frontier`), with the received numbers beyond it set aside.
-/

import HftLab.Multicast.Feed

namespace HftLab.Multicast

open Lib List

/-- Every number of `[f, n)` was received, `n` was not. -/
structure Frontier (f : Nat) (R : Finset Nat) (n : Nat) : Prop where
  start : f ≤ n
  below : ∀ m, f ≤ m → m < n → m ∈ R
  next : n ∉ R

theorem Frontier.unique {f n n' : Nat} {R : Finset Nat} (h : Frontier f R n) (h' : Frontier f R n') : n = n' := by
  rcases Nat.lt_trichotomy n n' with hlt | heq | hgt
  · exact absurd (h'.below n h.start hlt) h.next
  · exact heq
  · exact absurd (h.below n' h'.start hgt) h'.next

/-! ## What is missing -/

/-- After the numbers `R`, the first of them `f`. -/
structure GapRecovery.Knows (f : Nat) (R : Finset Nat) (g : GapRecovery) : Prop where
  started : g.initialized = true
  first : f < g.expected
  bound : ∀ m ∈ R, m < g.expected
  missing : ∀ m, m ∈ g.missing ↔ f ≤ m ∧ m < g.expected ∧ m ∉ R

section

variable {f n seq : Nat} {R : Finset Nat} {g : GapRecovery}

theorem mem_foldl_insert (l : List Nat) (s : Finset Nat) (m : Nat) :
    m ∈ l.foldl (fun m s => insert s m) s ↔ m ∈ s ∨ m ∈ l := by
  induction l generalizing s with
  | nil => simp
  | cons x l ih =>
    rw [foldl_cons, ih, Finset.mem_insert, mem_cons]
    constructor
    · rintro ((h | h) | h)
      · exact .inr (.inl h)
      · exact .inl h
      · exact .inr (.inr h)
    · rintro (h | h | h)
      · exact .inl (.inr h)
      · exact .inl (.inl h)
      · exact .inr h

theorem GapRecovery.Knows.init (h : f < 18446744073709551615) : (({} : GapRecovery).observe f).Knows f {f} := by
  have he : (({} : GapRecovery).observe f).expected = f + 1 := uint64_eq (by omega)
  refine ⟨rfl, by omega, ?_, fun m => ?_⟩
  · intro m hm
    rw [Finset.mem_singleton] at hm
    omega
  · refine iff_of_false (Finset.notMem_empty m) ?_
    rintro ⟨h1, h2, h3⟩
    rw [Finset.mem_singleton] at h3
    omega

theorem GapRecovery.Knows.observe (h : g.Knows f R) (hs : seq < 18446744073709551615) :
    (g.observe seq).Knows f (insert seq R) := by
  have hfirst := h.first
  unfold GapRecovery.observe
  dsimp only
  rw [h.started, Bool.not_true, if_neg Bool.false_ne_true]
  by_cases h1 : seq = g.expected
  · rw [if_pos h1]
    have he : uint64 (g.expected + 1) = g.expected + 1 := uint64_eq (by omega)
    refine ⟨rfl, ?_, fun m hm => ?_, fun m => ?_⟩
    · show f < uint64 (g.expected + 1)
      omega
    · show m < uint64 (g.expected + 1)
      rcases Finset.mem_insert.mp hm with rfl | hm
      · omega
      · have := h.bound m hm
        omega
    · show m ∈ g.missing ↔ f ≤ m ∧ m < uint64 (g.expected + 1) ∧ _
      rw [h.missing, he, Finset.mem_insert, h1]
      constructor
      · rintro ⟨h2, h3, h4⟩
        exact ⟨h2, by omega, fun hm => hm.elim (by omega) h4⟩
      · rintro ⟨h2, h3, h4⟩
        exact ⟨h2, by omega, fun hm => h4 (.inr hm)⟩
  rw [if_neg h1]
  by_cases h2 : g.expected < seq
  · rw [if_pos h2]
    have he : uint64 (seq + 1) = seq + 1 := uint64_eq (by omega)
    refine ⟨rfl, ?_, fun m hm => ?_, fun m => ?_⟩
    · show f < uint64 (seq + 1)
      omega
    · show m < uint64 (seq + 1)
      rcases Finset.mem_insert.mp hm with rfl | hm
      · omega
      · have := h.bound m hm
        omega
    · show m ∈ List.foldl _ g.missing (List.range' g.expected (seq - g.expected)) ↔ f ≤ m ∧ m < uint64 (seq + 1) ∧ _
      rw [mem_foldl_insert, h.missing, he, Finset.mem_insert, mem_range'_1]
      constructor
      · rintro (⟨h3, h4, h5⟩ | ⟨h3, h4⟩)
        · exact ⟨h3, by omega, fun hm => hm.elim (by omega) h5⟩
        · refine ⟨by omega, by omega, fun hm => hm.elim (by omega) fun hm => ?_⟩
          have := h.bound m hm
          omega
      · rintro ⟨h3, h4, h5⟩
        have hne : m ≠ seq := fun e => h5 (.inl e)
        by_cases hlt : m < g.expected
        · exact .inl ⟨h3, hlt, fun hm => h5 (.inr hm)⟩
        · exact .inr ⟨by omega, by omega⟩
  rw [if_neg h2]
  have hbound : ∀ m ∈ insert seq R, m < g.expected := by
    intro m hm
    rcases Finset.mem_insert.mp hm with rfl | hm
    · omega
    · exact h.bound m hm
  by_cases h3 : seq ∈ g.missing
  · rw [if_pos h3]
    refine ⟨rfl, h.first, hbound, fun m => ?_⟩
    rw [Finset.mem_erase, h.missing, Finset.mem_insert]
    tauto
  · rw [if_neg h3]
    refine ⟨rfl, h.first, hbound, fun m => ?_⟩
    rw [h.missing, Finset.mem_insert]
    constructor
    · rintro ⟨h4, h5, h6⟩
      refine ⟨h4, h5, fun hm => hm.elim (fun e => ?_) h6⟩
      exact h3 (e ▸ (h.missing m).mpr ⟨h4, h5, h6⟩)
    · rintro ⟨h4, h5, h6⟩
      exact ⟨h4, h5, fun hm => h6 (.inr hm)⟩

/-- The frontier is the oldest number missing, or the next one expected. -/
theorem GapRecovery.Knows.frontier (h : g.Knows f R) :
    Frontier f R (if g.missing = ∅ then g.expected else g.oldestMissing) := by
  have hfirst := h.first
  split
  · rename_i he
    refine ⟨by omega, fun m h1 h2 => ?_, fun hm => absurd (h.bound _ hm) (lt_irrefl _)⟩
    by_contra hm
    have := (h.missing m).mpr ⟨h1, h2, hm⟩
    rw [he] at this
    exact Finset.notMem_empty m this
  · rename_i he
    have hne : g.missing.Nonempty := Finset.nonempty_iff_ne_empty.mpr he
    have hold : g.oldestMissing = g.missing.min' hne := by
      unfold GapRecovery.oldestMissing
      rw [dif_pos hne]
    have hmem := g.missing.min'_mem hne
    rw [← hold] at hmem
    obtain ⟨h1, h2, h3⟩ := (h.missing _).mp hmem
    refine ⟨h1, fun m h4 h5 => ?_, h3⟩
    by_contra hm
    have := g.missing.min'_le m ((h.missing m).mpr ⟨h4, by omega, hm⟩)
    omega

end

/-! ## What came too early -/

/-- Every number of `[f, n)` was received; `A` are the received numbers from `n` on. -/
structure Mid (f : Nat) (R : Finset Nat) (n : Nat) (A : Nat → Prop) : Prop where
  start : f ≤ n
  below : ∀ m, f ≤ m → m < n → m ∈ R
  aside : ∀ m, A m ↔ m ∈ R ∧ n ≤ m

section

variable {f n seq : Nat} {R : Finset Nat} {A B : Nat → Prop}

theorem Mid.frontier (h : Mid f R n A) (hn : ¬ A n) : Frontier f R n :=
  ⟨h.start, h.below, fun hm => hn ((h.aside n).mpr ⟨hm, Nat.le_refl n⟩)⟩

theorem Mid.congr (h : Mid f R n A) (hA : ∀ m, B m ↔ A m) : Mid f R n B :=
  ⟨h.start, h.below, fun m => (hA m).trans (h.aside m)⟩

/-- The number `n` was received: it is no longer aside. -/
theorem Mid.advance (h : Mid f R n A) (hn : A n) : Mid f R (n + 1) fun m => A m ∧ m ≠ n := by
  have hs := h.start
  refine ⟨by omega, fun m h1 h2 => ?_, fun m => ?_⟩
  · by_cases e : m = n
    · rw [e]
      exact ((h.aside n).mp hn).1
    · exact h.below m h1 (by omega)
  · rw [h.aside]
    constructor
    · rintro ⟨⟨h1, h2⟩, h3⟩
      exact ⟨h1, by omega⟩
    · rintro ⟨h1, h2⟩
      exact ⟨⟨h1, by omega⟩, by omega⟩

theorem Mid.insert_old (h : Mid f R n A) (hs : seq < n) : Mid f (insert seq R) n A := by
  refine ⟨h.start, fun m h1 h2 => Finset.mem_insert_of_mem (h.below m h1 h2), fun m => ?_⟩
  rw [h.aside, Finset.mem_insert]
  constructor
  · rintro ⟨h1, h2⟩
    exact ⟨.inr h1, h2⟩
  · rintro ⟨h1 | h1, h2⟩
    · omega
    · exact ⟨h1, h2⟩

theorem Mid.insert_new (h : Mid f R n A) (hs : n ≤ seq) : Mid f (insert seq R) n fun m => m = seq ∨ A m := by
  refine ⟨h.start, fun m h1 h2 => Finset.mem_insert_of_mem (h.below m h1 h2), fun m => ?_⟩
  rw [h.aside, Finset.mem_insert]
  constructor
  · rintro (rfl | ⟨h1, h2⟩)
    · exact ⟨.inl rfl, hs⟩
    · exact ⟨.inr h1, h2⟩
  · rintro ⟨h1 | h1, h2⟩
    · exact .inl h1
    · exact .inr ⟨h1, h2⟩

/-- After the numbers `R`, from `f` on. -/
structure ContiguousTracker.Knows (f : Nat) (R : Finset Nat) (c : ContiguousTracker) : Prop where
  mid : Mid f R c.nextExpected (· ∈ c.ahead)
  idle : c.nextExpected ∉ c.ahead

/-- The loop stops at the frontier. -/
theorem catchUp_knows (k : Nat) {c : ContiguousTracker} (h : Mid f R c.nextExpected (· ∈ c.ahead))
    (hR : ∀ m ∈ R, m < 18446744073709551615) (hk : c.ahead.card ≤ k) : (c.catchUp k).Knows f R := by
  induction k generalizing c with
  | zero =>
    refine ⟨h, fun hm => ?_⟩
    have hpos : 0 < c.ahead.card := Finset.card_pos.mpr ⟨_, hm⟩
    omega
  | succ k ih =>
    unfold ContiguousTracker.catchUp
    by_cases hm : c.nextExpected ∈ c.ahead
    · rw [if_pos hm]
      have hlt := hR _ ((h.aside _).mp hm).1
      have hnext : uint64 (c.nextExpected + 1) = c.nextExpected + 1 := uint64_eq (by omega)
      refine ih ?_ ?_
      · rw [hnext]
        refine (h.advance hm).congr fun m => ?_
        rw [Finset.mem_erase, and_comm]
      · rw [Finset.card_erase_of_mem hm]
        omega
    · rw [if_neg hm]
      exact ⟨h, hm⟩

theorem ContiguousTracker.Knows.receive {c : ContiguousTracker} (h : c.Knows f R) (hR : ∀ m ∈ insert seq R, m < 18446744073709551615) :
    (c.receive seq).Knows f (insert seq R) := by
  unfold ContiguousTracker.receive
  by_cases h1 : seq < c.nextExpected
  · rw [if_pos h1]
    exact ⟨h.mid.insert_old h1, h.idle⟩
  rw [if_neg h1]
  have hmid := h.mid.insert_new (Nat.not_lt.mp h1)
  by_cases h2 : seq = c.nextExpected
  · rw [if_pos h2]
    have hlt := hR seq (Finset.mem_insert_self ..)
    have hnext : uint64 (c.nextExpected + 1) = c.nextExpected + 1 := uint64_eq (by omega)
    refine catchUp_knows _ ?_ hR (Nat.le_refl _)
    rw [hnext]
    refine (hmid.advance (.inl h2.symm)).congr fun m => ?_
    constructor
    · exact fun hm => ⟨.inr hm, fun e => h.idle (e ▸ hm)⟩
    · rintro ⟨rfl | hm, hne⟩
      · exact absurd h2 hne
      · exact hm
  · rw [if_neg h2]
    refine ⟨hmid.congr fun m => Finset.mem_insert, fun hm => ?_⟩
    rcases Finset.mem_insert.mp hm with e | hm
    · exact h2 e.symm
    · exact h.idle hm

/-! ## The early packets -/

variable {T : Type} {val : Nat → T}

/-- After the packets `R`, from `f` on. -/
structure ReorderBuffer.Knows (val : Nat → T) (f : Nat) (R : Finset Nat) (r : ReorderBuffer T) : Prop where
  started : r.initialized = true
  mid : Mid f R r.expected (· ∈ r.pending)
  payload : ∀ m v, r.pending.lookup m = some v → v = val m
  out : r.out = (List.range' f (r.expected - f)).map val

theorem drain_knows (k : Nat) {r : ReorderBuffer T} (h : r.Knows val f R) (hR : ∀ m ∈ R, m < 18446744073709551615)
    (hk : r.pending.entries.length ≤ k) : (r.drain k).Knows val f R ∧ (r.drain k).expected ∉ (r.drain k).pending := by
  induction k generalizing r with
  | zero =>
    refine ⟨h, fun hm => ?_⟩
    have hnil : r.pending.entries = [] := length_eq_zero_iff.mp (by omega)
    have hkeys : r.expected ∈ r.pending.keys := hm
    unfold AList.keys at hkeys
    rw [hnil] at hkeys
    cases hkeys
  | succ k ih =>
    unfold ReorderBuffer.drain
    cases hl : r.pending.lookup r.expected with
    | none => exact ⟨h, AList.lookup_eq_none.mp hl⟩
    | some v =>
      have hm : r.expected ∈ r.pending := AList.lookup_isSome.mp (by rw [hl]; rfl)
      have hlt := hR _ ((h.mid.aside _).mp hm).1
      have hnext : uint64 (r.expected + 1) = r.expected + 1 := uint64_eq (by omega)
      refine ih ⟨h.started, ?_, fun m w hw => ?_, ?_⟩ ?_
      · rw [hnext]
        refine (h.mid.advance hm).congr fun m => ?_
        rw [AList.mem_erase, and_comm]
      · have hne : m ≠ r.expected := by
          rintro rfl
          rw [AList.lookup_erase] at hw
          cases hw
        rw [AList.lookup_erase_ne hne] at hw
        exact h.payload m w hw
      · have hstart := h.mid.start
        rw [hnext, show r.expected + 1 - f = r.expected - f + 1 by omega, range'_concat, map_append, ← h.out,
          show f + 1 * (r.expected - f) = r.expected by omega, h.payload _ v hl]
        rfl
      · show (r.pending.erase r.expected).entries.length ≤ k
        have hlen : (r.pending.erase r.expected).keys.length = r.pending.keys.length - 1 := by
          rw [AList.keys_erase]
          exact length_erase_of_mem hm
        unfold AList.keys List.keys at hlen
        rw [length_map, length_map] at hlen
        omega

theorem ReorderBuffer.Knows.push {r : ReorderBuffer T} (h : r.Knows val f R) (hidle : r.expected ∉ r.pending)
    (hR : ∀ m ∈ insert seq R, m < 18446744073709551615) :
    (r.push seq (val seq)).Knows val f (insert seq R) ∧ (r.push seq (val seq)).expected ∉ (r.push seq (val seq)).pending := by
  unfold ReorderBuffer.push
  rw [if_pos h.started]
  by_cases h1 : seq < r.expected
  · rw [if_pos h1]
    exact ⟨⟨h.started, h.mid.insert_old h1, h.payload, h.out⟩, hidle⟩
  rw [if_neg h1]
  refine drain_knows _ ⟨h.started, ?_, fun m v hv => ?_, h.out⟩ hR (Nat.le_refl _)
  · exact (h.mid.insert_new (Nat.not_lt.mp h1)).congr fun m => AList.mem_insert _
  · by_cases e : m = seq
    · subst e
      rw [AList.lookup_insert] at hv
      cases hv
      rfl
    · rw [AList.lookup_insert_ne e] at hv
      exact h.payload m v hv

end

/-! ## The three together -/

/-- An invariant of what was received, over the numbers `ns`. -/
theorem foldl_knows {α : Type} {step : α → Nat → α} {I : Finset Nat → α → Prop} (ns : List Nat) {R : Finset Nat} {a : α}
    (h : I R a) (hns : ∀ n ∈ ns, n < 18446744073709551615) (hR : ∀ n ∈ R, n < 18446744073709551615)
    (hstep : ∀ R a n, (∀ m ∈ insert n R, m < 18446744073709551615) → I R a → I (insert n R) (step a n)) :
    I (R ∪ ns.toFinset) (ns.foldl step a) := by
  induction ns generalizing R a with
  | nil => simpa using h
  | cons n ns ih =>
    have hins : ∀ m ∈ insert n R, m < 18446744073709551615 := by
      intro m hm
      rcases Finset.mem_insert.mp hm with rfl | hm
      · exact hns m mem_cons_self
      · exact hR m hm
    have := ih (hstep R a n hins h) (fun m hm => hns m (mem_cons_of_mem _ hm)) hins
    rw [foldl_cons, toFinset_cons, Finset.union_insert, ← Finset.insert_union]
    exact this

section

variable {T : Type} {f : Nat} {ns : List Nat}

theorem gapRecovery_knows (h : ∀ n ∈ f :: ns, n < 18446744073709551615) :
    ((f :: ns).foldl GapRecovery.observe {}).Knows f (f :: ns).toFinset := by
  have hf := h f mem_cons_self
  have := foldl_knows ns (GapRecovery.Knows.init hf) (fun n hn => h n (mem_cons_of_mem _ hn))
    (by simpa using hf) fun R g n hn hk => hk.observe (hn n (Finset.mem_insert_self ..))
  rwa [toFinset_cons, Finset.insert_eq]

theorem contiguousTracker_knows (h : ∀ n ∈ f :: ns, n < 18446744073709551615) :
    ((f :: ns).foldl ContiguousTracker.receive { nextExpected := f }).Knows f (f :: ns).toFinset := by
  have hstart : ({ nextExpected := f } : ContiguousTracker).Knows f ∅ :=
    ⟨⟨Nat.le_refl f, fun m h1 h2 => absurd h1 (Nat.not_le.mpr h2), fun m => by simp⟩, Finset.notMem_empty f⟩
  have := foldl_knows (f :: ns) hstart h (by simp) fun R c n hn hk => hk.receive hn
  rwa [Finset.empty_union] at this

theorem reorderBuffer_knows (val : Nat → T) (h : ∀ n ∈ f :: ns, n < 18446744073709551615) :
    ((f :: ns).foldl (fun r n => r.push n (val n)) ({} : ReorderBuffer T)).Knows val f (f :: ns).toFinset ∧
      ((f :: ns).foldl (fun r n => r.push n (val n)) ({} : ReorderBuffer T)).expected ∉
        ((f :: ns).foldl (fun r n => r.push n (val n)) ({} : ReorderBuffer T)).pending := by
  have hempty : ∀ m : Nat, m ∉ (∅ : AList fun _ : Nat => T) := fun m => AList.notMem_empty m
  have hstart : ({ expected := f, initialized := true } : ReorderBuffer T).Knows val f ∅ := by
    refine ⟨rfl, ⟨Nat.le_refl f, fun m h1 h2 => absurd h1 (Nat.not_le.mpr h2), fun m => ?_⟩, fun m v hv => ?_, ?_⟩
    · exact iff_of_false (hempty m) fun hm => Finset.notMem_empty m hm.1
    · cases hv
    · rw [Nat.sub_self]
      rfl
  have := foldl_knows (I := fun R (r : ReorderBuffer T) => r.Knows val f R ∧ r.expected ∉ r.pending) (f :: ns)
    ⟨hstart, hempty f⟩ h (by simp) fun R r n hn hk => hk.1.push hk.2 hn
  rw [Finset.empty_union] at this
  -- the first packet sets `expected` to its own number
  exact this

end

/-- The trackers after the numbers `ns`. -/
def GapRecovery.fed (ns : List Nat) : GapRecovery := ns.foldl GapRecovery.observe {}

/-- This one is told the first number. -/
def ContiguousTracker.fed (f : Nat) (ns : List Nat) : ContiguousTracker := ns.foldl ContiguousTracker.receive { nextExpected := f }

def ReorderBuffer.fed {T : Type} (val : Nat → T) (ns : List Nat) : ReorderBuffer T := ns.foldl (fun r n => r.push n (val n)) {}

/-- Fed the same numbers, the three trackers agree: what is missing is what did not come, both in-order trackers stand at
    the oldest number missing and set the same numbers aside, and what came before was delivered in order. -/
theorem trackers_agree {T : Type} (val : Nat → T) (f : Nat) (ns : List Nat) (h : ∀ n ∈ f :: ns, n < 2 ^ 64 - 1) :
    (∀ m, m ∈ (GapRecovery.fed (f :: ns)).missing ↔ f ≤ m ∧ m < (GapRecovery.fed (f :: ns)).expected ∧ m ∉ f :: ns) ∧
    (ContiguousTracker.fed f (f :: ns)).nextExpected = (ReorderBuffer.fed val (f :: ns)).expected ∧
    (ReorderBuffer.fed val (f :: ns)).expected = (if (GapRecovery.fed (f :: ns)).missing = ∅ then
      (GapRecovery.fed (f :: ns)).expected else (GapRecovery.fed (f :: ns)).oldestMissing) ∧
    (∀ m, m ∈ (ContiguousTracker.fed f (f :: ns)).ahead ↔ m ∈ (ReorderBuffer.fed val (f :: ns)).pending) ∧
    (ReorderBuffer.fed val (f :: ns)).out = (List.range' f ((ReorderBuffer.fed val (f :: ns)).expected - f)).map val := by
  have hg := gapRecovery_knows h
  have hc := contiguousTracker_knows h
  obtain ⟨hr, hidle⟩ := reorderBuffer_knows val h
  have hcr : (ContiguousTracker.fed f (f :: ns)).nextExpected = (ReorderBuffer.fed val (f :: ns)).expected :=
    (hc.mid.frontier hc.idle).unique (hr.mid.frontier hidle)
  refine ⟨fun m => ?_, hcr, (hr.mid.frontier hidle).unique hg.frontier, fun m => ?_, hr.out⟩
  · unfold GapRecovery.fed
    rw [hg.missing, List.mem_toFinset]
  · have h1 := hc.mid.aside m
    have h2 := hr.mid.aside m
    rw [show ((f :: ns).foldl ContiguousTracker.receive { nextExpected := f }).nextExpected =
      (ReorderBuffer.fed val (f :: ns)).expected from hcr] at h1
    exact h1.trans h2.symm

/-- A gap that is filled, one that stays, a duplicate and a number before the first. -/
theorem trackers_agree_small : (GapRecovery.fed [5, 7, 8, 5, 6, 3, 11]).oldestMissing = 9 ∧
    (ReorderBuffer.fed (10 * ·) [5, 7, 8, 5, 6, 3, 11]).expected = 9 ∧
    (ReorderBuffer.fed (10 * ·) [5, 7, 8, 5, 6, 3, 11]).out =
      (List.range' 5 ((ReorderBuffer.fed (10 * ·) [5, 7, 8, 5, 6, 3, 11]).expected - 5)).map (10 * ·) :=
  ⟨by decide, by decide, (trackers_agree (10 * ·) 5 [7, 8, 5, 6, 3, 11] (by decide)).2.2.2.2⟩

end HftLab.Multicast
