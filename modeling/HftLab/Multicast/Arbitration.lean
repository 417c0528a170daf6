/-
  HftLab.Multicast.Arbitration — which packets of two redundant lines are forwarded, and which increments are
  applied on top of a snapshot.

  - `arbitration_exactly_once`: `ABLineArbitrator` forwards exactly the first copy of each number;
  - `lossless_iff`: `ArbitratedReceiver` knows only the highest number seen. It forwards exactly the packets that
    start there or beyond, so a message is lost if it first comes in a packet that starts below (`Late`);
  - `join_exact_iff`: `SnapshotSyncBuffer` looks at the number of an increment only while it waits for the snapshot.
-/

import HftLab.Multicast.Agreement

namespace HftLab.Multicast

open Lib List

/-! ## Exactly once -/

/-- The numbers forwarded so far, and the arbitrator, after one more packet. -/
def arbitrateStep (x : List Nat × ABLineArbitrator) (p : Nat × Bool) : List Nat × ABLineArbitrator :=
  match x.2.onPacket p.1 p.2 with
  | (true, a) => (x.1 ++ [p.1], a)
  | (false, a) => (x.1, a)

/-- A packet is its number and whether it came on line A. -/
def arbitrate (ps : List (Nat × Bool)) : List Nat × ABLineArbitrator := ps.foldl arbitrateStep ([], {})

/-- After the packets `ps`, the first of them numbered `f`. -/
structure Arbitrated (f : Nat) (ps : List (Nat × Bool)) (x : List Nat × ABLineArbitrator) : Prop where
  knows : x.2.recovery.Knows f x.1.toFinset
  once : x.1.Nodup
  forwarded : ∀ m, m ∈ x.1 ↔ f ≤ m ∧ m ∈ ps.map (·.1)
  counted : x.2.aFirst + x.2.bFirst = x.1.length

section

variable {f : Nat} {ps : List (Nat × Bool)} {x : List Nat × ABLineArbitrator} {p : Nat × Bool}

/-- A packet is new if its number is not below the first and was not forwarded. -/
theorem Arbitrated.new_iff (h : Arbitrated f ps x) (p : Nat × Bool) :
    (x.2.onPacket p.1 p.2).1 = true ↔ f ≤ p.1 ∧ p.1 ∉ x.1 := by
  have hfirst := h.knows.first
  have hnew : (!x.2.recovery.initialized || decide (x.2.recovery.expected ≤ p.1) || decide (p.1 ∈ x.2.recovery.missing)) ↔
      f ≤ p.1 ∧ p.1 ∉ x.1 := by
    rw [h.knows.started, Bool.or_eq_true, Bool.or_eq_true, decide_eq_true_eq, decide_eq_true_eq, h.knows.missing,
      mem_toFinset]
    constructor
    · rintro ((h1 | h1) | h1)
      · cases h1
      · refine ⟨by omega, fun hm => ?_⟩
        have := h.knows.bound _ (mem_toFinset.mpr hm)
        omega
      · exact ⟨h1.1, h1.2.2⟩
    · rintro ⟨h1, h2⟩
      by_cases hlt : p.1 < x.2.recovery.expected
      · exact .inr ⟨h1, hlt, h2⟩
      · exact .inl (.inr (by omega))
  rw [← hnew]
  unfold ABLineArbitrator.onPacket
  by_cases hc : (!x.2.recovery.initialized || decide (x.2.recovery.expected ≤ p.1) || decide (p.1 ∈ x.2.recovery.missing))
  · rw [hc]
    exact iff_of_true rfl rfl
  · rw [Bool.not_eq_true] at hc
    rw [hc]
    exact iff_of_false Bool.false_ne_true Bool.false_ne_true

theorem onPacket_new (a : ABLineArbitrator) (seq : Nat) (line : Bool) (h : (a.onPacket seq line).1) :
    (a.onPacket seq line).2.recovery = a.recovery.observe seq ∧
      (a.onPacket seq line).2.aFirst + (a.onPacket seq line).2.bFirst = a.aFirst + a.bFirst + 1 := by
  unfold ABLineArbitrator.onPacket at h ⊢
  dsimp only at h ⊢
  split at h
  · cases h
  · rename_i hc
    rw [if_neg hc]
    cases line
    · exact ⟨rfl, rfl⟩
    · refine ⟨rfl, ?_⟩
      show a.aFirst + 1 + a.bFirst = _
      omega

theorem onPacket_old (a : ABLineArbitrator) (seq : Nat) (line : Bool) (h : (a.onPacket seq line).1 = false) :
    (a.onPacket seq line).2 = { a with dups := a.dups + 1 } := by
  unfold ABLineArbitrator.onPacket at h ⊢
  dsimp only at h ⊢
  split at h
  · rename_i hc
    rw [if_pos hc]
  · cases h

theorem Arbitrated.step (h : Arbitrated f ps x) (hp : p.1 < 18446744073709551615) : Arbitrated f (ps ++ [p]) (arbitrateStep x p) := by
  have hnew := h.new_iff p
  have hmem : ∀ m, m ∈ (ps ++ [p]).map (·.1) ↔ m ∈ ps.map (·.1) ∨ m = p.1 := by
    intro m
    rw [map_append, mem_append, map_singleton, mem_singleton]
  unfold arbitrateStep
  rcases hon : x.2.onPacket p.1 p.2 with ⟨ok, a⟩
  rw [hon] at hnew
  cases ok with
  | true =>
    obtain ⟨h1, h2⟩ := hnew.mp rfl
    have hup := onPacket_new x.2 p.1 p.2 (by rw [hon])
    rw [hon] at hup
    refine ⟨?_, ?_, fun m => ?_, ?_⟩
    · have hset : (x.1 ++ [p.1]).toFinset = insert p.1 x.1.toFinset := by
        ext m
        simp
      rw [hset, show a.recovery = x.2.recovery.observe p.1 from hup.1]
      exact h.knows.observe hp
    · exact nodup_append.mpr ⟨h.once, nodup_singleton _, by
        rintro y hy z hz rfl
        rw [mem_singleton] at hz
        exact h2 (hz ▸ hy)⟩
    · rw [mem_append, mem_singleton, h.forwarded, hmem]
      constructor
      · rintro (⟨h3, h4⟩ | rfl)
        · exact ⟨h3, .inl h4⟩
        · exact ⟨h1, .inr rfl⟩
      · rintro ⟨h3, h4 | h4⟩
        · exact .inl ⟨h3, h4⟩
        · exact .inr h4
    · rw [length_append, ← h.counted]
      exact hup.2
  | false =>
    have hold := onPacket_old x.2 p.1 p.2 (by rw [hon])
    rw [hon] at hold
    have hold : a = { x.2 with dups := x.2.dups + 1 } := hold
    subst hold
    refine ⟨h.knows, h.once, fun m => ?_, h.counted⟩
    rw [h.forwarded, hmem]
    constructor
    · rintro ⟨h3, h4⟩
      exact ⟨h3, .inl h4⟩
    · rintro ⟨h3, h4 | rfl⟩
      · exact ⟨h3, h4⟩
      · by_contra hnot
        have hfwd : p.1 ∉ x.1 := fun hm => hnot ((h.forwarded _).mp hm)
        exact absurd (hnew.mpr ⟨h3, hfwd⟩) Bool.false_ne_true

theorem arbitrate_arbitrated (l : Bool) (h : ∀ p ∈ (f, l) :: ps, p.1 < 18446744073709551615) :
    Arbitrated f ((f, l) :: ps) (arbitrate ((f, l) :: ps)) := by
  have hf : f < 18446744073709551615 := h _ mem_cons_self
  have hstart : Arbitrated f [(f, l)] (arbitrateStep ([], {}) (f, l)) := by
    have hforward : ∀ m, m ∈ [f] ↔ f ≤ m ∧ m ∈ [(f, l)].map (·.1) := by
      intro m
      simp only [map_cons, map_nil, mem_singleton]
      constructor
      · rintro rfl
        exact ⟨Nat.le_refl _, rfl⟩
      · exact fun hm => hm.2
    cases l
    · exact ⟨GapRecovery.Knows.init hf, nodup_singleton f, hforward, rfl⟩
    · exact ⟨GapRecovery.Knows.init hf, nodup_singleton f, hforward, rfl⟩
  have hrun : ∀ (qs done : List (Nat × Bool)) (x : List Nat × ABLineArbitrator), Arbitrated f done x →
      (∀ q ∈ qs, q.1 < 18446744073709551615) → Arbitrated f (done ++ qs) (qs.foldl arbitrateStep x) := by
    intro qs
    induction qs with
    | nil =>
      intro done x hx _
      rw [append_nil]
      exact hx
    | cons q qs ih =>
      intro done x hx hq
      rw [append_cons]
      exact ih _ _ (hx.step (hq q mem_cons_self)) fun r hr => hq r (mem_cons_of_mem _ hr)
  exact hrun ps _ _ hstart fun p hp => h p (mem_cons_of_mem _ hp)

end

/-- After any packets, the first numbered `f`: each number from `f` on that came was forwarded once and counted once, what
    is missing is what was not forwarded, and the next packet is forwarded exactly if its number did not come before. -/
theorem arbitration_exactly_once (f : Nat) (l : Bool) (ps : List (Nat × Bool)) (h : ∀ p ∈ (f, l) :: ps, p.1 < 2 ^ 64 - 1) :
    (({} : ABLineArbitrator).onPacket f l).1 = true ∧
    (let x := arbitrate ((f, l) :: ps)
     x.1.Nodup ∧ (∀ m, m ∈ x.1 ↔ f ≤ m ∧ m ∈ ((f, l) :: ps).map (·.1)) ∧
     x.2.aFirst + x.2.bFirst = ((((f, l) :: ps).map (·.1)).filter (f ≤ ·)).toFinset.card ∧
     (∀ m, m ∈ x.2.recovery.missing ↔ f ≤ m ∧ m < x.2.recovery.expected ∧ m ∉ x.1) ∧
     ∀ seq line, f ≤ seq → ((x.2.onPacket seq line).1 = true ↔ seq ∉ ((f, l) :: ps).map (·.1))) := by
  have hx := arbitrate_arbitrated l h
  refine ⟨rfl, hx.once, hx.forwarded, ?_, fun m => ?_, fun seq line hs => ?_⟩
  · rw [hx.counted, ← List.toFinset_card_of_nodup hx.once]
    congr 1
    ext m
    rw [List.mem_toFinset, List.mem_toFinset, List.mem_filter, hx.forwarded, decide_eq_true_eq, and_comm]
  · rw [hx.knows.missing, List.mem_toFinset]
  · rw [hx.new_iff (seq, line), hx.forwarded]
    constructor
    · rintro ⟨-, h2⟩ hm
      exact h2 ⟨hs, hm⟩
    · exact fun hm => ⟨hs, fun h2 => hm h2.2⟩

/-- Line A loses 6, line B brings it; both bring 7. -/
theorem arbitration_exactly_once_small :
    (arbitrate [(5, true), (7, true), (5, false), (6, false), (7, false)]).1 = [5, 7, 6] ∧
    (arbitrate [(5, true), (7, true), (5, false), (6, false), (7, false)]).1.Nodup :=
  ⟨by decide, (arbitration_exactly_once 5 true [(7, true), (5, false), (6, false), (7, false)] (by decide)).2.1⟩

/-! ## The highest number seen -/

/-- The messages `[seq, seq + count)` on a line. -/
structure Packet where
  line : Line
  seq : Nat
  count : Nat
  deriving DecidableEq, Repr

def Packet.last (p : Packet) : Nat := p.seq + p.count

def Packet.covers (p : Packet) (m : Nat) : Bool := p.seq ≤ m && m < p.last

/-- What `observe` said of each packet, and the receiver, after one more packet. -/
def observeStep (x : List (Packet × Result) × ArbitratedReceiver) (p : Packet) : List (Packet × Result) × ArbitratedReceiver :=
  (x.1 ++ [(p, (x.2.observe p.line p.seq p.count).1)], (x.2.observe p.line p.seq p.count).2)

def observeAll (ps : List Packet) : List (Packet × Result) × ArbitratedReceiver := ps.foldl observeStep ([], {})

/-- The packets in which `m` was forwarded. -/
def copies (m : Nat) (log : List (Packet × Result)) : Nat := log.countP fun x => x.2 ≠ .duplicate && x.1.covers m

/-- Every message from the first on that arrives is forwarded in one packet, and its later copies are duplicates. -/
def Lossless (ps : List Packet) : Prop :=
  ∀ first ∈ ps.head?, ∀ m, first.seq ≤ m → (∃ p ∈ ps, p.covers m) →
    copies m (observeAll ps).1 = 1 ∧
    ∀ l₁ x l₂, (observeAll ps).1 = l₁ ++ x :: l₂ → x.2 ≠ .duplicate → x.1.covers m →
      ∀ y ∈ l₂, y.1.covers m → y.2 = .duplicate

/-- One behind the highest number in `ps`; a packet of no messages counts as one that ends where it starts. -/
def cursor (ps : List Packet) : Nat := (ps.map Packet.last).foldl max 0

/-- Behind the packets `ps`, from `first` on, `p` starts below a number already seen but brings a message for the first
    time. -/
def Late (first : Nat) (ps : List Packet) (p : Packet) : Prop :=
  ps ≠ [] ∧ p.seq < cursor ps ∧ ∃ m, first ≤ m ∧ p.covers m = true ∧ ∀ q ∈ ps, q.covers m = false

instance (first : Nat) (ps : List Packet) (p : Packet) : Decidable (Late first ps p) :=
  decidable_of_iff (ps ≠ [] ∧ p.seq < cursor ps ∧ ∃ m ∈ List.range' p.seq p.count, first ≤ m ∧ ∀ q ∈ ps, q.covers m = false) <| by
    unfold Late
    refine and_congr_right fun _ => and_congr_right fun _ => exists_congr fun m => ?_
    have hcov : m ∈ List.range' p.seq p.count ↔ p.covers m = true := by
      rw [mem_range'_1, Packet.covers, Bool.and_eq_true, decide_eq_true_eq, decide_eq_true_eq]
      rfl
    rw [hcov]
    tauto

section

variable {ps : List Packet} {p : Packet} {m : Nat}

theorem cursor_snoc (ps : List Packet) (p : Packet) : cursor (ps ++ [p]) = max (cursor ps) p.last := by
  unfold cursor
  rw [map_append, foldl_append]
  rfl

theorem last_le_cursor (h : p ∈ ps) : p.last ≤ cursor ps := by
  induction ps using List.reverseRecOn with
  | nil => cases h
  | append_singleton ps q ih =>
    rw [cursor_snoc]
    rcases mem_append.mp h with h | h
    · exact (ih h).trans (Nat.le_max_left _ _)
    · rw [mem_singleton.mp h]
      exact Nat.le_max_right _ _

theorem covers_lt_cursor (h : p ∈ ps) (hm : p.covers m) : m < cursor ps := by
  have := last_le_cursor h
  simp only [Packet.covers, Bool.and_eq_true, decide_eq_true_eq] at hm
  omega

theorem observeAll_snoc (ps : List Packet) (p : Packet) : observeAll (ps ++ [p]) = observeStep (observeAll ps) p := by
  unfold observeAll
  rw [foldl_append]
  rfl

/-- A packet moves the expected number to its end or not at all, and is new if it starts there or beyond. -/
theorem observePacket_spec (t : SequenceTracker) {seq count : Nat} (h : seq + count < 18446744073709551616) :
    (t.observePacket seq count).2.initialized = true ∧
    (t.observePacket seq count).2.expectedSeq = (if t.initialized then max t.expectedSeq (seq + count) else seq + count) ∧
    ((t.observePacket seq count).1 = .duplicate ↔ t.initialized ∧ seq < t.expectedSeq) := by
  have hu : uint64 (seq + count) = seq + count := uint64_eq h
  unfold SequenceTracker.observePacket
  cases hi : t.initialized with
  | false => exact ⟨rfl, hu, iff_of_false (by simp) (by simp)⟩
  | true =>
    rw [if_neg (by simp), if_pos rfl]
    by_cases h1 : seq = t.expectedSeq
    · rw [if_pos h1]
      refine ⟨rfl, ?_, iff_of_false (by simp) fun hh => by omega⟩
      show uint64 (t.expectedSeq + count) = _
      rw [← h1, hu]
      omega
    rw [if_neg h1]
    by_cases h2 : t.expectedSeq < seq
    · rw [if_pos h2]
      refine ⟨rfl, ?_, iff_of_false (by simp) fun hh => by omega⟩
      show uint64 (seq + count) = _
      rw [hu]
      omega
    rw [if_neg h2, hu]
    have hdup : true ∧ seq < t.expectedSeq := ⟨rfl, by omega⟩
    dsimp only
    split
    · refine ⟨rfl, ?_, iff_of_true rfl hdup⟩
      show t.expectedSeq = _
      omega
    · refine ⟨rfl, ?_, iff_of_true rfl hdup⟩
      show seq + count = _
      omega

theorem observe_tracker (r : ArbitratedReceiver) (line : Line) (seq count : Nat) :
    (r.observe line seq count).2.tracker = (r.tracker.observePacket seq count).2 ∧
    ((r.observe line seq count).1 = .duplicate ↔ (r.tracker.observePacket seq count).1 = .duplicate) := by
  unfold ArbitratedReceiver.observe
  rcases r.tracker.observePacket seq count with ⟨status, t⟩
  cases status <;> cases line <;> exact ⟨rfl, by simp⟩

/-- The tracker knows the cursor, and forwards what starts there or beyond. -/
theorem observe_cursor (hp : p.last < 18446744073709551616)
    (hi : (observeAll ps).2.tracker.initialized = decide (ps ≠ [])) (he : (observeAll ps).2.tracker.expectedSeq = cursor ps) :
    ((observeAll (ps ++ [p])).2.tracker.initialized = true ∧
      (observeAll (ps ++ [p])).2.tracker.expectedSeq = cursor (ps ++ [p])) ∧
    (((observeAll ps).2.observe p.line p.seq p.count).1 = .duplicate ↔ ps ≠ [] ∧ p.seq < cursor ps) := by
  obtain ⟨h1, h2, h3⟩ := observePacket_spec (observeAll ps).2.tracker (show p.seq + p.count < _ from hp)
  obtain ⟨h4, h5⟩ := observe_tracker (observeAll ps).2 p.line p.seq p.count
  rw [observeAll_snoc, cursor_snoc]
  refine ⟨?_, ?_⟩
  · show ((observeAll ps).2.observe p.line p.seq p.count).2.tracker.initialized ∧
      ((observeAll ps).2.observe p.line p.seq p.count).2.tracker.expectedSeq = _
    rw [h4]
    refine ⟨h1, ?_⟩
    rw [h2, hi, he]
    by_cases h0 : ps = []
    · rw [h0]
      exact (Nat.zero_max _).symm
    · rw [decide_eq_true h0]
      rfl
  · rw [h5, h3, hi, he, decide_eq_true_eq]

theorem observeAll_tracker (h : ∀ q ∈ ps, q.last < 18446744073709551616) :
    (observeAll ps).2.tracker.initialized = decide (ps ≠ []) ∧ (observeAll ps).2.tracker.expectedSeq = cursor ps := by
  induction ps using List.reverseRecOn with
  | nil => exact ⟨rfl, rfl⟩
  | append_singleton ps p ih =>
    obtain ⟨h1, h2⟩ := ih fun q hq => h q (mem_append_left _ hq)
    obtain ⟨⟨h3, h4⟩, -⟩ := observe_cursor (h p (by simp)) h1 h2
    exact ⟨by rw [h3]; simp, h4⟩

/-- How often `m` is forwarded, packet by packet. -/
theorem copies_snoc (h : ∀ q ∈ ps ++ [p], q.last < 18446744073709551616) :
    copies m (observeAll (ps ++ [p])).1 = copies m (observeAll ps).1 +
      if (ps = [] ∨ cursor ps ≤ p.seq) ∧ p.covers m = true then 1 else 0 := by
  obtain ⟨h1, h2⟩ := observeAll_tracker fun q hq => h q (mem_append_left _ hq)
  obtain ⟨-, hdup⟩ := observe_cursor (h p (by simp)) h1 h2
  have hfwd : ((observeAll ps).2.observe p.line p.seq p.count).1 ≠ .duplicate ↔ ps = [] ∨ cursor ps ≤ p.seq := by
    rw [ne_eq, hdup, not_and_or, not_not, Nat.not_lt]
  rw [observeAll_snoc]
  unfold observeStep copies
  rw [countP_append, countP_singleton]
  congr 1
  refine if_congr ?_ rfl rfl
  rw [Bool.and_eq_true, decide_eq_true_eq, hfwd]

theorem copies_eq_zero (h : ∀ q ∈ ps, q.last < 18446744073709551616) (hm : ∀ q ∈ ps, q.covers m = false) :
    copies m (observeAll ps).1 = 0 := by
  induction ps using List.reverseRecOn with
  | nil => rfl
  | append_singleton ps p ih =>
    rw [copies_snoc h, ih (fun q hq => h q (mem_append_left _ hq)) fun q hq => hm q (mem_append_left _ hq), if_neg]
    rintro ⟨-, hc⟩
    rw [hm p (by simp)] at hc
    cases hc

/-- Below the cursor nothing is forwarded any more. -/
theorem copies_settled {qs : List Packet} (h : ∀ q ∈ ps ++ qs, q.last < 18446744073709551616) (hne : ps ≠ [])
    (hm : m < cursor ps) : copies m (observeAll (ps ++ qs)).1 = copies m (observeAll ps).1 ∧ m < cursor (ps ++ qs) := by
  induction qs using List.reverseRecOn with
  | nil =>
    rw [append_nil]
    exact ⟨rfl, hm⟩
  | append_singleton qs p ih =>
    rw [← append_assoc] at h ⊢
    obtain ⟨h1, h2⟩ := ih fun q hq => h q (mem_append_left _ hq)
    rw [copies_snoc h, h1, cursor_snoc]
    refine ⟨?_, by omega⟩
    rw [if_neg, Nat.add_zero]
    rintro ⟨hc | hc, hcov⟩
    · exact hne (append_eq_nil_iff.mp hc).1
    · simp only [Packet.covers, Bool.and_eq_true, decide_eq_true_eq] at hcov
      omega

theorem copies_le_one (h : ∀ q ∈ ps, q.last < 18446744073709551616) : copies m (observeAll ps).1 ≤ 1 := by
  induction ps using List.reverseRecOn with
  | nil => exact Nat.zero_le _
  | append_singleton ps p ih =>
    have hps : ∀ q ∈ ps, q.last < 18446744073709551616 := fun q hq => h q (mem_append_left _ hq)
    rw [copies_snoc h]
    split
    · rename_i hc
      have hzero : copies m (observeAll ps).1 = 0 := by
        refine copies_eq_zero hps fun q hq => ?_
        by_contra hcov
        have hlt := covers_lt_cursor hq (by simpa using hcov)
        have hcov2 := hc.2
        simp only [Packet.covers, Bool.and_eq_true, decide_eq_true_eq] at hcov2
        rcases hc.1 with he | hle
        · rw [he] at hq
          cases hq
        · omega
      omega
    · exact ih hps

/-- With no late packet, whatever arrives is forwarded. -/
theorem copies_eq_one {first : Nat} (h : ∀ q ∈ ps, q.last < 18446744073709551616)
    (hlate : ∀ pre q post, ps = pre ++ q :: post → ¬ Late first pre q) (hm : first ≤ m) (hcov : ∃ p ∈ ps, p.covers m) :
    copies m (observeAll ps).1 = 1 := by
  induction ps using List.reverseRecOn with
  | nil =>
    obtain ⟨p, hp, -⟩ := hcov
    cases hp
  | append_singleton ps p ih =>
    have hps : ∀ q ∈ ps, q.last < 18446744073709551616 := fun q hq => h q (mem_append_left _ hq)
    have hpre : ∀ pre q post, ps = pre ++ q :: post → ¬ Late first pre q := by
      intro pre q post he
      refine hlate pre q (post ++ [p]) ?_
      rw [he, append_assoc, cons_append]
    have hle := copies_le_one (m := m) h
    rw [copies_snoc h] at hle ⊢
    by_cases hold : ∃ q ∈ ps, q.covers m
    · have := ih hps hpre hold
      omega
    · have hpcov : p.covers m := by
        obtain ⟨q, hq, hqc⟩ := hcov
        rcases mem_append.mp hq with hq | hq
        · exact absurd ⟨q, hq, hqc⟩ hold
        · rwa [mem_singleton.mp hq] at hqc
      have hnone : ∀ q ∈ ps, q.covers m = false := by
        intro q hq
        by_contra hc
        exact hold ⟨q, hq, by simpa using hc⟩
      rw [copies_eq_zero hps hnone, if_pos]
      refine ⟨?_, hpcov⟩
      by_contra hc
      rw [not_or, Nat.not_le] at hc
      exact hlate ps p [] rfl ⟨hc.1, hc.2, m, hm, hpcov, hnone⟩

end

/-- Nothing is lost exactly if no packet is late. -/
theorem lossless_iff (ps : List Packet) (h : ∀ p ∈ ps, p.last < 2 ^ 64) :
    Lossless ps ↔ ∀ first ∈ ps.head?, ∀ pre p post, ps = pre ++ p :: post → ¬ Late first.seq pre p := by
  constructor
  · rintro hl first hfirst pre p post rfl ⟨hne, hlt, m, hm, hcov, hnone⟩
    have hone := (hl first hfirst m hm ⟨p, by simp, hcov⟩).1
    -- the copy in `p` is dropped, and the cursor is past `m` by then
    have hpre : ∀ q ∈ pre ++ [p], q.last < 18446744073709551616 := fun q hq => h q (by
      rcases List.mem_append.mp hq with hq | hq
      · simp [hq]
      · simp [List.mem_singleton.mp hq])
    have hzero : copies m (observeAll (pre ++ [p])).1 = 0 := by
      rw [copies_snoc hpre, copies_eq_zero (fun q hq => hpre q (List.mem_append_left _ hq)) hnone, if_neg]
      rintro ⟨hc | hc, -⟩
      · exact hne hc
      · omega
    have hpast : m < cursor (pre ++ [p]) := covers_lt_cursor (by simp) hcov
    rw [List.append_cons] at h hone
    rw [(copies_settled h (by simp) hpast).1, hzero] at hone
    cases hone
  · intro hlate first hfirst m hm hcov
    have hone := copies_eq_one h (hlate first hfirst) hm hcov
    refine ⟨hone, fun l₁ x l₂ hlog hx hxm y hy hym => ?_⟩
    by_contra hdup
    rw [hlog] at hone
    unfold copies at hone
    rw [List.countP_append, List.countP_cons_of_pos (by simp [hx, hxm])] at hone
    have hpos : 0 < l₂.countP fun x => x.2 ≠ .duplicate && x.1.covers m :=
      List.countP_pos_iff.mpr ⟨y, hy, by simp [hdup, hym]⟩
    omega

/-- Line A loses message 2, line B is a packet behind. -/
def repairedFeed : List Packet := [⟨.a, 1, 1⟩, ⟨.b, 1, 1⟩, ⟨.a, 3, 1⟩, ⟨.b, 2, 1⟩, ⟨.b, 3, 1⟩]

theorem lossless_iff_small : Lossless [⟨.a, 1, 2⟩, ⟨.b, 1, 1⟩, ⟨.b, 2, 1⟩, ⟨.b, 4, 1⟩, ⟨.a, 4, 1⟩] := by
  refine (lossless_iff _ (by decide)).mpr fun first hfirst pre p post hsplit => ?_
  cases hfirst
  have hnone : ∀ i : Fin 5, ¬ Late 1
      ([⟨.a, 1, 2⟩, ⟨.b, 1, 1⟩, ⟨.b, 2, 1⟩, ⟨.b, 4, 1⟩, ⟨.a, 4, 1⟩].take i)
      ([⟨.a, 1, 2⟩, ⟨.b, 1, 1⟩, ⟨.b, 2, 1⟩, ⟨.b, 4, 1⟩, ⟨.a, 4, 1⟩].get i) := by decide
  have hlen : pre.length < 5 := by
    have := congrArg List.length hsplit
    simp at this
    omega
  have hget : [⟨.a, 1, 2⟩, ⟨.b, 1, 1⟩, ⟨.b, 2, 1⟩, ⟨.b, 4, 1⟩, ⟨.a, 4, 1⟩][pre.length]? = some p := by
    rw [hsplit, List.getElem?_append_right (Nat.le_refl _), Nat.sub_self]
    rfl
  have htake : [⟨.a, 1, 2⟩, ⟨.b, 1, 1⟩, ⟨.b, 2, 1⟩, ⟨.b, 4, 1⟩, ⟨.a, 4, 1⟩].take pre.length = pre := by
    rw [hsplit, List.take_left]
  have hlate := hnone ⟨pre.length, hlen⟩
  rw [List.getElem?_eq_getElem hlen, Option.some.injEq] at hget
  rwa [List.get_eq_getElem, hget, htake] at hlate

/-- Line B brings what line A lost, and it is dropped as a duplicate. -/
theorem repaired_message_lost : (observeAll repairedFeed).1.map (·.2) = [.fresh, .duplicate, .gap, .duplicate, .duplicate] ∧
    ¬ Lossless repairedFeed := by
  refine ⟨by decide, fun h => ?_⟩
  have := (h ⟨.a, 1, 1⟩ rfl 2 (by decide) ⟨⟨.b, 2, 1⟩, by decide, by decide⟩).1
  exact absurd this (by decide)

/-! ## Snapshot and increments -/

/-- The increments the caller is told to apply at once, and the buffer, after one more increment. -/
def incrementStep (x : List Nat × SnapshotSyncBuffer) (seq : Nat) : List Nat × SnapshotSyncBuffer :=
  match x.2.onIncrement seq with
  | (true, s) => (x.1 ++ [seq], s)
  | (false, s) => (x.1, s)

/-- The increments `early`, the snapshot at `snapSeq`, the increments `late`: what the caller applies, the replay of the
    buffer first. -/
def joined (early : List Nat) (snapSeq : Nat) (late : List Nat) : Multiset Nat :=
  let x := early.foldl incrementStep ([], {})
  let s := (x.2.applySnapshot snapSeq).2
  let y := late.foldl incrementStep (x.1, s)
  s.buffered.val + y.1

/-- Each received number beyond the snapshot is applied once, no other. -/
def JoinExact (early : List Nat) (snapSeq : Nat) (late : List Nat) : Prop :=
  ∀ m, (joined early snapSeq late).count m = if snapSeq < m ∧ m ∈ early ++ late then 1 else 0

theorem early_buffered (early : List Nat) (x : List Nat × SnapshotSyncBuffer) (h : x.2.applied = false) :
    (early.foldl incrementStep x).1 = x.1 ∧ (early.foldl incrementStep x).2.applied = false ∧
      (early.foldl incrementStep x).2.buffered = x.2.buffered ∪ early.toFinset := by
  induction early generalizing x with
  | nil => exact ⟨rfl, h, by simp⟩
  | cons n early ih =>
    have hstep : incrementStep x n = (x.1, { x.2 with buffered := insert n x.2.buffered }) := by
      unfold incrementStep SnapshotSyncBuffer.onIncrement
      rw [if_neg (by simp [h])]
    obtain ⟨h1, h2, h3⟩ := ih (incrementStep x n) (by rw [hstep]; exact h)
    rw [foldl_cons]
    refine ⟨by rw [h1, hstep], h2, ?_⟩
    rw [h3, hstep, toFinset_cons, Finset.union_insert, ← Finset.insert_union]

theorem late_applied (late : List Nat) (x : List Nat × SnapshotSyncBuffer) (h : x.2.applied) :
    (late.foldl incrementStep x).1 = x.1 ++ late := by
  induction late generalizing x with
  | nil => exact (append_nil _).symm
  | cons n late ih =>
    have hstep : incrementStep x n = (x.1 ++ [n], x.2) := by
      unfold incrementStep SnapshotSyncBuffer.onIncrement
      rw [h]
      rfl
    rw [foldl_cons, ih _ (by rw [hstep]; exact h), hstep, append_assoc]
    rfl

/-- After the snapshot every increment is applied as it comes. -/
theorem joined_eq (early : List Nat) (snapSeq : Nat) (late : List Nat) :
    joined early snapSeq late = (early.toFinset.filter (snapSeq < ·)).val + (late : Multiset Nat) := by
  obtain ⟨h1, -, h3⟩ := early_buffered early ([], {}) rfl
  unfold joined
  dsimp only
  rw [late_applied late _ rfl, h1]
  unfold SnapshotSyncBuffer.applySnapshot
  rw [h3, Finset.empty_union]
  rfl

theorem count_joined (early : List Nat) (snapSeq : Nat) (late : List Nat) (m : Nat) :
    (joined early snapSeq late).count m = (if snapSeq < m ∧ m ∈ early then 1 else 0) + late.count m := by
  rw [joined_eq, Multiset.count_add, Multiset.coe_count, Multiset.count_eq_of_nodup (Finset.nodup _)]
  congr 1
  refine if_congr ?_ rfl rfl
  rw [Finset.mem_val, Finset.mem_filter, mem_toFinset, and_comm]

/-- The join is exact exactly if every increment that comes after the snapshot is beyond it and comes for the first time. -/
theorem join_exact_iff (early : List Nat) (snapSeq : Nat) (late : List Nat) :
    JoinExact early snapSeq late ↔ late.Nodup ∧ ∀ m ∈ late, snapSeq < m ∧ m ∉ early := by
  unfold JoinExact
  simp only [count_joined, List.mem_append]
  constructor
  · intro h
    have hle : ∀ m, late.count m ≤ 1 := by
      intro m
      have := h m
      split at this <;> split at this <;> omega
    refine ⟨List.nodup_iff_count_le_one.mpr hle, fun m hm => ?_⟩
    have hpos : 0 < late.count m := List.count_pos_iff.mpr hm
    have hcount := h m
    have hlt : snapSeq < m := by
      by_contra hc
      rw [if_neg fun hh => hc hh.1, if_neg fun hh => hc hh.1] at hcount
      omega
    refine ⟨hlt, fun he => ?_⟩
    rw [if_pos ⟨hlt, he⟩, if_pos ⟨hlt, Or.inl he⟩] at hcount
    omega
  · rintro ⟨hn, hlate⟩ m
    by_cases hm : m ∈ late
    · obtain ⟨h1, h2⟩ := hlate m hm
      rw [List.count_eq_one_of_mem hn hm, if_neg fun hh => h2 hh.2, if_pos ⟨h1, Or.inr hm⟩]
    · rw [List.count_eq_zero_of_not_mem hm, Nat.add_zero]
      refine if_congr (and_congr_right fun _ => ?_) rfl rfl
      simp [hm]

/-- An increment that the snapshot covers, late: it is applied on top of it. -/
theorem covered_increment_applied : joined [4, 7] 5 [5, 8] = {7, 5, 8} ∧ ¬ JoinExact [4, 7] 5 [5, 8] := by
  refine ⟨by decide, fun h => ?_⟩
  have := h 5
  exact absurd this (by decide)

end HftLab.Multicast
