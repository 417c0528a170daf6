/-
  HftLab.OrderBook.LoadSafety — what `load_snapshot` does with any buffer.

  `load_snapshot` checks a length computed in 64 bits, clears the book and only then looks at the records,
  whose prices it does not check at all. So a buffer whose header it accepts is loaded without harm exactly
  if it is sound: the records lie in the buffer, there is a slot for each, and each is a waiting stop or has
  a price on the grid.
  In a cluster the offset of the next symbol may wrap.
-/

import HftLab.OrderBook.Cluster
import HftLab.OrderBook.Reachable
import Mathlib.Data.Fintype.Card
import Mathlib.Data.List.TakeWhile

namespace HftLab.OrderBook

open Lib Function List Bool

/-- The load read and indexed within bounds, and if it failed nothing changed. -/
def Load.Safe {α : Type} (s : α) : Load α → Prop
  | .overread | .offGrid => False
  | .done ok s' => ok = false → s' = s

/-- Between two calls every slot is free, in a queue or a waiting stop. -/
structure Book.Housed (V : Env) (b : Book) : Prop where
  links : Links V b.core []
  idle : b.inFlight = []

/-- The record of a waiting stop, or of an order with a price on the grid. -/
def OrderRecord.onGrid (V : Env) (r : OrderRecord) : Bool := (r.write {}).isPendingStop || inRange V r.priceTicks

/-- The `count` field of a header. -/
def headerCount (buf : List UInt8) : Nat := (snapshotHeader.get buf).2.2

/-- A header with this magic number and version. -/
def headerIs (magic version : Nat) (buf : List UInt8) : Bool :=
  (snapshotHeader.get buf).1 = magic && (snapshotHeader.get buf).2.1 = version

/-- `load_snapshot(buf, len)` goes on behind the header. -/
def passesHeader (buf : List UInt8) (len : Nat) : Bool :=
  16 ≤ len && headerIs SNAPSHOT_MAGIC SNAPSHOT_VERSION buf && u64 (16 + u64 (headerCount buf * orderRecord.size)) ≤ len

/-- The records the header announces lie in the buffer, each has a slot, and each is on the grid or waits. -/
def recordsSound (V : Env) (buf : List UInt8) : Bool :=
  16 + headerCount buf * orderRecord.size ≤ buf.length && headerCount buf ≤ V.MAX_ORDERS &&
    (orderRecord.getAll (headerCount buf) (buf.drop 16)).all (·.onGrid V)

section

variable {V : Env} {c c' : Core} {F X : List Nat} {Q : Int → List Nat} {b b' : Book} {i n off m : Nat} {r : OrderRecord}
  {buf : List UInt8}

theorem Reach.housed {P : Book → Op → Book → Prop} (h : Book.Reach V P b) : b.Housed V := by
  obtain ⟨hw, hx⟩ := Reach.wf h
  refine ⟨?_, hx⟩
  have := hw.links
  rwa [hx] at this

/-! ## One record -/

theorem alloc_pool (ha : c.allocOrder = some (i, c')) : c'.pool i = {} := by
  unfold Core.allocOrder at ha
  split at ha
  · cases ha
  · cases ha
    exact update_self ..

theorem file_eq (ha : c.allocOrder = some (i, c')) : (c'.setOrder i (r.write (c'.pool i))).file V i =
    if (r.write {}).isPendingStop then
      some ({ c'.setOrder i (r.write {}) with stopOrders := c'.stopOrders ++ [i] }.indexOrder i)
    else if inRange V r.priceTicks then
      some ((if (r.write {}).type = .peg then { c'.settle i (r.write {}) with pegOrders := c'.pegOrders ++ [i] }
        else c'.settle i (r.write {})).raiseBest (r.write {}).side r.priceTicks)
    else none := by
  rw [alloc_pool ha]
  unfold Core.file
  rw [Core.setOrder_pool_self]
  rfl

theorem Layout.raiseBest (h : Layout V c F Q X) (side : Side) (p : Int) : Layout V (c.raiseBest side p) F Q X := by
  obtain ⟨x, y, he⟩ := c.raiseBest_eq p side
  rw [he]
  exact h.same rfl rfl rfl rfl rfl

/-- A record is filed if it is on the grid or waits, and takes a slot. -/
theorem file_spec (hl : Layout V c F Q X) (ha : c.allocOrder = some (i, c')) :
    (r.onGrid V = false ∧ (c'.setOrder i (r.write (c'.pool i))).file V i = none) ∨
    r.onGrid V = true ∧ ∃ G R d, F = i :: G ∧ (c'.setOrder i (r.write (c'.pool i))).file V i = some d ∧ Layout V d G R X := by
  obtain ⟨G, hF, hl', -⟩ := hl.alloc ha
  rw [file_eq ha]
  unfold OrderRecord.onGrid
  by_cases hp : (r.write {}).isPendingStop
  · rw [hp, if_pos rfl]
    refine .inr ⟨rfl, G, Q, _, hF, rfl, ?_⟩
    have h1 := hl'.setOrder_out (mem_append_right _ mem_cons_self) (r.write {})
    have h2 := h1.park mem_cons_self
    rw [erase_cons_head] at h2
    exact h2.same rfl rfl rfl rfl rfl
  · rw [if_neg hp, Bool.eq_false_iff.mpr hp, Bool.false_or]
    by_cases hr : inRange V r.priceTicks
    · rw [if_pos hr]
      refine .inr ⟨decide_eq_true hr, G, update Q r.priceTicks (Q r.priceTicks ++ [i]), _, hF, rfl, ?_⟩
      have h1 := hl'.settle (o := r.write {}) mem_cons_self hr
      rw [erase_cons_head] at h1
      refine Layout.raiseBest ?_ _ _
      split
      · exact h1.same rfl rfl rfl rfl rfl
      · exact h1
    · exact .inl ⟨decide_eq_false hr, if_neg hr⟩

/-! ## The records -/

theorem readAt_some {α : Type} (k : Codec α) (h : off + k.size ≤ buf.length) :
    k.readAt buf off = some (k.get (buf.drop off)) := if_pos h

theorem readAt_none {α : Type} (k : Codec α) (h : buf.length < off + k.size) : k.readAt buf off = none := if_neg (by omega)

theorem getAll_succ {α : Type} (k : Codec α) (n off : Nat) (buf : List UInt8) :
    k.getAll (n + 1) (buf.drop off) = k.get (buf.drop off) :: k.getAll n (buf.drop (off + k.size)) := by
  show _ :: k.getAll n ((buf.drop off).drop k.size) = _
  rw [drop_drop]

/-- What the end of the loop says of the buffer. If it fails for want of a slot, every slot is taken. -/
theorem loadRecords_outcome (buf : List UInt8) (n m : Nat) (hl : Layout V b.core F Q []) (hoff : off ≤ buf.length) :
    match Book.loadRecords V buf n off m b with
    | .overread => buf.length < off + n * orderRecord.size
    | .offGrid => (orderRecord.getAll n (buf.drop off)).all (·.onGrid V) = false
    | .done false b' => F.length < n ∧ b'.core.activeOrders = V.MAX_ORDERS ∧ Links V b'.core [] ∧ b'.inFlight = b.inFlight
    | .done true b' => off + n * orderRecord.size ≤ buf.length ∧ n ≤ F.length ∧
        (orderRecord.getAll n (buf.drop off)).all (·.onGrid V) = true ∧ Links V b'.core [] ∧ b'.inFlight = b.inFlight := by
  induction n generalizing off m b F Q with
  | zero =>
    refine ⟨?_, Nat.zero_le _, rfl, ?_, rfl⟩
    · rw [Nat.zero_mul]
      exact hoff
    · refine Layout.links (F := F) (Q := Q) ?_
      exact hl.same rfl rfl rfl rfl rfl
  | succ n ih =>
    unfold Book.loadRecords
    rw [getAll_succ, all_cons]
    have hsize : off + (n + 1) * orderRecord.size = off + orderRecord.size + n * orderRecord.size := by
      rw [Nat.add_mul, Nat.one_mul, Nat.add_comm (n * _), Nat.add_assoc]
    by_cases hread : off + orderRecord.size ≤ buf.length
    · rw [readAt_some orderRecord hread]
      cases ha : b.core.allocOrder with
      | none =>
        have hF := hl.alloc_none ha
        have hact := hl.active
        rw [hF] at hact ⊢
        exact ⟨Nat.succ_pos n, hact, hl.links, rfl⟩
      | some z =>
        obtain ⟨i, c'⟩ := z
        dsimp only
        rcases file_spec hl ha with ⟨hg, hf⟩ | ⟨hg, G, R, d, hF, hf, hl'⟩
        · rw [hf]
          rw [hg, Bool.false_and]
        · rw [hf, hg, Bool.true_and, hsize, hF]
          dsimp only
          have hrec := ih (max m (orderRecord.get (buf.drop off)).id) (b := { b with core := d }) hl' hread
          cases hout : Book.loadRecords V buf n (off + orderRecord.size) (max m (orderRecord.get (buf.drop off)).id)
              { b with core := d } with
          | overread =>
            rw [hout] at hrec
            exact hrec
          | offGrid =>
            rw [hout] at hrec
            exact hrec
          | done ok b' =>
            rw [hout] at hrec
            cases ok with
            | false => exact ⟨Nat.succ_lt_succ hrec.1, hrec.2⟩
            | true => exact ⟨hrec.1, Nat.succ_le_succ hrec.2.1, hrec.2.2⟩
    · rw [readAt_none orderRecord (by omega)]
      omega

/-! ## A snapshot -/

theorem Book.Housed.clear (h : b.Housed V) : ∃ G, Layout V (b.clear V).core G (fun _ => []) [] ∧ G.length = V.MAX_ORDERS := by
  have hl : Links V b.core b.inFlight := by
    rw [h.idle]
    exact h.links
  obtain ⟨G, hG, -⟩ := Links.clear hl
  rw [h.idle] at hG
  refine ⟨G, hG, ?_⟩
  have hperm : G.Perm (List.range V.MAX_ORDERS) := by
    refine (perm_ext_iff_of_nodup hG.free_nodup nodup_range).mpr fun j => ?_
    rw [mem_range, hG.cover j]
    show _ ↔ j ∈ G ++ [] ++ [] ∨ _
    simp
  rw [hperm.length_eq, length_range]

theorem header_reads (h : 16 ≤ buf.length) : snapshotHeader.readAt buf 0 = some (snapshotHeader.get buf) := by
  have h0 : 0 + snapshotHeader.size ≤ buf.length := by
    show 0 + 16 ≤ _
    omega
  exact readAt_some snapshotHeader h0

/-- The checks of a header, in the order the loads make them. -/
theorem headerChecks_eq {α : Type} {magic version M w len lo hi : Nat} (x y : α) :
    (if len < 16 then y else if magic ≠ M then y else if version ≠ w then y else if hi < lo then y else x) =
      if (decide (16 ≤ len) && (decide (magic = M) && decide (version = w)) && decide (lo ≤ hi)) = true then x else y := by
  by_cases hlen : len < 16
  · simp [hlen]
  · by_cases hm : magic = M
    · by_cases hv : version = w
      · by_cases hn : hi < lo
        · simp [hn]
        · simp [hlen, hm, hv, hn]
      · simp [hv]
    · simp [hm]

theorem loadSnapshot_eq {len : Nat} (h : 16 ≤ buf.length) : b.loadSnapshot V buf len =
    if passesHeader buf len then Book.loadRecords V buf (headerCount buf) 16 0 (b.clear V) else .done false b := by
  unfold Book.loadSnapshot passesHeader headerIs headerCount
  rw [header_reads h]
  obtain ⟨magic, version, count⟩ := snapshotHeader.get buf
  exact headerChecks_eq _ _

/-- What the end of the load says of the buffer. -/
theorem loadSnapshot_outcome (hb : b.Housed V) (buf : List UInt8) (len : Nat) :
    match b.loadSnapshot V buf len with
    | .overread | .offGrid => recordsSound V buf = false ∧ 16 ≤ len ∧ (16 ≤ buf.length → passesHeader buf len)
    | .done false b' => passesHeader buf len = false ∧ b' = b ∨
        passesHeader buf len = true ∧ recordsSound V buf = false ∧ b'.core.activeOrders = V.MAX_ORDERS ∧ b'.Housed V
    | .done true b' => passesHeader buf len = true ∧ recordsSound V buf ∧ b'.Housed V := by
  by_cases h : 16 ≤ buf.length
  · rw [loadSnapshot_eq h]
    cases hp : passesHeader buf len with
    | false => exact .inl ⟨rfl, rfl⟩
    | true =>
      rw [if_pos rfl]
      have hlen : 16 ≤ len := by
        unfold passesHeader at hp
        simp only [Bool.and_eq_true, decide_eq_true_eq] at hp
        exact hp.1.1
      obtain ⟨G, hl, hG⟩ := hb.clear
      have hout := loadRecords_outcome buf (headerCount buf) 0 hl h
      unfold recordsSound
      cases hr : Book.loadRecords V buf (headerCount buf) 16 0 (b.clear V) with
      | overread =>
        rw [hr] at hout
        refine ⟨?_, hlen, fun _ => rfl⟩
        rw [decide_eq_false (by show ¬ 16 + _ ≤ _; have hout : buf.length < 16 + _ := hout; omega)]
        rfl
      | offGrid =>
        rw [hr] at hout
        have hout : List.all _ _ = false := hout
        exact ⟨by rw [hout, Bool.and_false], hlen, fun _ => rfl⟩
      | done ok b' =>
        rw [hr] at hout
        cases ok with
        | false =>
          have hlt : V.MAX_ORDERS < headerCount buf := hG ▸ hout.1
          refine .inr ⟨rfl, ?_, hout.2.1, hout.2.2.1, hout.2.2.2.trans hb.idle⟩
          rw [decide_eq_false (by omega : ¬ headerCount buf ≤ V.MAX_ORDERS), Bool.and_false, Bool.false_and]
        | true =>
          obtain ⟨h1, h2, h3, h4, h5⟩ := hout
          refine ⟨rfl, ?_, h4, h5.trans hb.idle⟩
          rw [decide_eq_true h1, decide_eq_true (hG ▸ h2), h3]
          rfl
  · have hs : recordsSound V buf = false := by
      unfold recordsSound
      rw [decide_eq_false (by omega)]
      rfl
    unfold Book.loadSnapshot
    by_cases hlen : len < 16
    · rw [if_pos hlen]
      refine .inl ⟨?_, rfl⟩
      unfold passesHeader
      rw [decide_eq_false (by omega)]
      rfl
    · rw [if_neg hlen, readAt_none snapshotHeader (by show _ < 0 + 16; omega)]
      exact ⟨hs, by omega, fun h16 => absurd h16 h⟩

theorem clear_housed (h : b.Housed V) : (b.clear V).Housed V := by
  obtain ⟨G, hl, -⟩ := h.clear
  exact ⟨hl.links, h.idle⟩

end

/-! ## A cluster -/

def Cluster.Housed {N : Nat} (V : Env) (c : Cluster N) : Prop := ∀ i, (c.books i).Housed V

/-- `load_snapshot(buf, len)` of a cluster of `N` goes on behind the header. -/
def passesClusterHeader (N : Nat) (buf : List UInt8) (len : Nat) : Bool :=
  16 ≤ len && headerIs Cluster.CLUSTER_SNAPSHOT_MAGIC Cluster.CLUSTER_SNAPSHOT_VERSION buf && headerCount buf ≤ N

def entryKey (buf : List UInt8) (off : Nat) : Nat := pack ((buf.drop off).take 8 ++ [0])

def entryLength (buf : List UInt8) (off : Nat) : Nat := (Codec.uint 8).get (buf.drop (off + 9))

/-- The offset behind the entry at `off`; it may wrap. -/
def entryNext (buf : List UInt8) (off : Nat) : Nat := u64 (off + 17 + entryLength buf off)

/-- The entry at `off` lies in the buffer, with the sound snapshot of its book, and its name is none of `keys`. -/
def entrySound (V : Env) (buf : List UInt8) (off : Nat) (keys : List Nat) : Bool :=
  off + 17 ≤ buf.length && entryNext buf off ≤ buf.length && entryKey buf off ∉ keys &&
    passesHeader (buf.drop (off + 17)) (entryLength buf off) && recordsSound V (buf.drop (off + 17))

/-- The next `n` entries are sound, each read where the one before it sends the loop. -/
def entriesSound (V : Env) (buf : List UInt8) : Nat → Nat → List Nat → Bool
  | 0, _, _ => true
  | n + 1, off, keys => entrySound V buf off keys && entriesSound V buf n (entryNext buf off) (entryKey buf off :: keys)

section

variable {V : Env} {N : Nat} {c : Cluster N} {keys : List Nat} {sym buf : List UInt8}

/-- The symbols registered so far are those with the keys `keys`. -/
structure Cluster.Lists (V : Env) (c : Cluster N) (keys : List Nat) : Prop where
  housed : c.Housed V
  count : (Finset.univ.filter fun i => c.slotUsed i = true).card = keys.length
  mem : ∀ k, k ∈ keys ↔ ∃ i, c.slotUsed i = true ∧ pack (c.symbols i) = k
  active : c.activeCount = keys.length

theorem symbolChars_pad (sym : List UInt8) :
    symbolChars (symbolChars sym ++ List.replicate (9 - (symbolChars sym).length) 0) = symbolChars sym := by
  have hlen : (symbolChars sym).length ≤ 8 := (takeWhile_sublist _).length_le.trans (by simp)
  have hne : ∀ x ∈ symbolChars sym, decide (x ≠ 0) = true := by
    intro x hx
    simpa using mem_takeWhile_imp hx
  show ((symbolChars sym ++ List.replicate (9 - (symbolChars sym).length) 0).take 8).takeWhile (· ≠ 0) = _
  rw [take_append, take_of_length_le hlen, takeWhile_append_of_pos hne, take_replicate]
  have hz : (List.replicate (min (8 - (symbolChars sym).length) (9 - (symbolChars sym).length)) (0 : UInt8)).takeWhile
      (· ≠ 0) = [] := by
    cases min (8 - (symbolChars sym).length) (9 - (symbolChars sym).length) with
    | zero => rfl
    | succ n => rfl
  rw [hz, append_nil]

theorem findSlot_isSome : (c.findSlot sym).isSome ↔ ∃ i, c.slotUsed i ∧ pack (c.symbols i) = pack sym := by
  unfold Cluster.findSlot
  rw [List.find?_isSome]
  simp

theorem register_taken (h : c.Lists V keys) (hk : pack sym ∈ keys) : c.registerSymbol sym = (false, c) :=
  if_pos (findSlot_isSome.mpr ((h.mem _).mp hk))

theorem register_new (sym : List UInt8) (h : c.Lists V keys) (hk : pack sym ∉ keys) (hlt : keys.length < N) :
    ∃ i c', c.registerSymbol sym = (true, c') ∧ c'.findSlot sym = some i ∧ c'.Lists V (pack sym :: keys) := by
  have hno : ¬ (c.findSlot sym).isSome := fun hs => hk ((h.mem _).mpr (findSlot_isSome.mp hs))
  -- a slot is unused, for fewer than `N` are used
  have hfree : ∃ i, c.slotUsed i = false := by
    by_contra hall
    have hu : (Finset.univ.filter fun i => c.slotUsed i = true) = Finset.univ := by
      refine Finset.filter_true_of_mem fun i _ => ?_
      by_contra hf
      exact hall ⟨i, eq_false_iff.mpr hf⟩
    have := h.count
    rw [hu, Finset.card_univ, Fintype.card_fin] at this
    omega
  cases hf : (List.finRange N).find? fun i => !c.slotUsed i with
  | none =>
    obtain ⟨i, hi⟩ := hfree
    have := List.find?_eq_none.mp hf i (mem_finRange i)
    rw [hi] at this
    exact absurd rfl this
  | some j =>
    have hj : c.slotUsed j = false := by simpa using List.find?_some hf
    have hreg : ∃ c', c.registerSymbol sym = (true, c') ∧ c'.books = c.books ∧
        c'.slotUsed = update c.slotUsed j true ∧ c'.activeCount = c.activeCount + 1 ∧
        c'.symbols = update c.symbols j
          (symbolChars sym ++ List.replicate (9 - (symbolChars sym).length) 0) := by
      unfold Cluster.registerSymbol
      rw [if_neg hno, hf]
      exact ⟨_, rfl, rfl, rfl, rfl, rfl⟩
    obtain ⟨c', hc', hbooks, hused, hact, hsym⟩ := hreg
    have hnew : c'.slotUsed j ∧ pack (c'.symbols j) = pack sym := by
      rw [hused, hsym, update_self, update_self]
      exact ⟨rfl, congrArg leNat (symbolChars_pad sym)⟩
    have hold : ∀ i, i ≠ j → (c'.slotUsed i = c.slotUsed i ∧ c'.symbols i = c.symbols i) := by
      intro i hne
      rw [hused, hsym, update_of_ne hne, update_of_ne hne]
      exact ⟨rfl, rfl⟩
    obtain ⟨i, hi⟩ := Option.isSome_iff_exists.mp (findSlot_isSome.mpr ⟨j, hnew⟩)
    refine ⟨i, c', hc', hi, ?_, ?_, fun k => ?_, ?_⟩
    · intro i
      rw [hbooks]
      exact h.housed i
    · have hins : (Finset.univ.filter fun i => c'.slotUsed i = true) =
          insert j (Finset.univ.filter fun i => c.slotUsed i = true) := by
        ext i
        rw [Finset.mem_insert, Finset.mem_filter, Finset.mem_filter]
        by_cases e : i = j
        · subst e
          simp [hnew.1]
        · simp [e, (hold i e).1]
      rw [hins, Finset.card_insert_of_notMem (by simp [hj]), h.count]
      rfl
    · rw [mem_cons, h.mem k]
      constructor
      · rintro (rfl | ⟨i, hi, hp⟩)
        · exact ⟨j, hnew⟩
        · have hne : i ≠ j := by
            rintro rfl
            rw [hj] at hi
            cases hi
          exact ⟨i, (hold i hne).1.trans hi, by rw [(hold i hne).2, hp]⟩
      · rintro ⟨i, hi, hp⟩
        by_cases e : i = j
        · subst e
          exact .inl (hp.symm.trans hnew.2)
        · exact .inr ⟨i, (hold i e).1.symm.trans hi, by rw [← (hold i e).2, hp]⟩
    · rw [hact, h.active]
      rfl

theorem Cluster.Lists.setBook (h : c.Lists V keys) (i : Fin N) {b : Book} (hb : b.Housed V) : (c.setBook i b).Lists V keys := by
  refine ⟨fun j => ?_, h.count, h.mem, h.active⟩
  show (update c.books i b j).Housed V
  by_cases e : j = i
  · rw [e, update_self]
    exact hb
  · rw [update_of_ne e]
    exact h.housed j

theorem reset_lists (h : c.Housed V) : (c.reset V).Lists V [] := by
  refine ⟨fun i => ?_, ?_, fun k => ?_, rfl⟩
  · show Book.Housed V (if c.slotUsed i then (c.books i).clear V else c.books i)
    split
    · exact clear_housed (h i)
    · exact h i
  · show (Finset.univ.filter fun _ => false = true).card = 0
    simp
  · constructor
    · intro hk
      cases hk
    · rintro ⟨i, hi, -⟩
      cases hi

theorem readEntry_some {off : Nat} (h : off + 17 ≤ buf.length) :
    Cluster.readEntry buf off = some ((buf.drop off).take 8 ++ [0], entryLength buf off) := if_pos h

/-- A pass of the loop over an entry that lies in the buffer. -/
theorem loadEntries_inside {off n : Nat} (h : off + 17 ≤ buf.length) : Cluster.loadEntries V buf buf.length (n + 1) off c =
    if buf.length < entryNext buf off then .done false c
    else
      match c.registerSymbol ((buf.drop off).take 8 ++ [0]) with
      | (false, c) => .done false c
      | (true, c) =>
        match c.findSlot ((buf.drop off).take 8 ++ [0]) with
        | none => .done false c
        | some i =>
          match (c.books i).loadSnapshot V (buf.drop (off + 17)) (entryLength buf off) with
          | .overread => .overread
          | .offGrid => .offGrid
          | .done false b => .done false (c.setBook i b)
          | .done true b => Cluster.loadEntries V buf buf.length n (entryNext buf off) (c.setBook i b) := by
  have hu : ¬ buf.length < u64 (off + 9 + 8) := by
    have : u64 (off + 9 + 8) ≤ off + 9 + 8 := Nat.mod_le _ _
    omega
  conv => lhs; unfold Cluster.loadEntries
  rw [if_neg hu, readEntry_some h]
  rfl

/-- A sound entry is loaded, and the loop goes on. -/
theorem loadEntries_sound {off n : Nat} (hc : c.Lists V keys) (hlt : keys.length < N) (hs : entrySound V buf off keys) :
    ∃ c' : Cluster N, c'.Lists V (entryKey buf off :: keys) ∧ Cluster.loadEntries V buf buf.length (n + 1) off c =
      Cluster.loadEntries V buf buf.length n (entryNext buf off) c' := by
  unfold entrySound at hs
  simp only [and_eq_true, decide_eq_true_eq] at hs
  obtain ⟨⟨⟨⟨hin, hnext⟩, hk⟩, hpass⟩, hrec⟩ := hs
  obtain ⟨i, c', hr, hf, hc'⟩ := register_new ((buf.drop off).take 8 ++ [0]) hc hk hlt
  have hout := loadSnapshot_outcome (hc'.housed i) (buf.drop (off + 17)) (entryLength buf off)
  cases hl : (c'.books i).loadSnapshot V (buf.drop (off + 17)) (entryLength buf off) with
  | overread =>
    rw [hl] at hout
    exact absurd (hrec.symm.trans hout.1) (by decide)
  | offGrid =>
    rw [hl] at hout
    exact absurd (hrec.symm.trans hout.1) (by decide)
  | done ok b =>
    rw [hl] at hout
    cases ok with
    | false =>
      rcases hout with ⟨h1, -⟩ | ⟨-, h1, -⟩
      · exact absurd (hpass.symm.trans h1) (by decide)
      · exact absurd (hrec.symm.trans h1) (by decide)
    | true =>
      refine ⟨c'.setBook i b, hc'.setBook i hout.2.2, ?_⟩
      rw [loadEntries_inside hin, if_neg (Nat.not_lt.mpr hnext), hr]
      dsimp only
      rw [hf]
      dsimp only
      rw [hl]

/-- An entry that is not sound ends the load badly; how many symbols are registered then does not depend on the
    cluster. -/
theorem loadEntries_unsound {off : Nat} (n : Nat) (hlt : keys.length < N) (hs : entrySound V buf off keys = false) :
    ∃ M, ∀ c : Cluster N, c.Lists V keys →
      match Cluster.loadEntries V buf buf.length (n + 1) off c with
      | .overread | .offGrid => True
      | .done false c' => c'.activeCount = M
      | .done true _ => False := by
  by_cases hin : off + 17 ≤ buf.length
  · by_cases hnext : buf.length < entryNext buf off
    · refine ⟨keys.length, fun c hc => ?_⟩
      rw [loadEntries_inside hin, if_pos hnext]
      exact hc.active
    by_cases hk : entryKey buf off ∈ keys
    · refine ⟨keys.length, fun c hc => ?_⟩
      rw [loadEntries_inside hin, if_neg hnext, register_taken hc hk]
      exact hc.active
    refine ⟨keys.length + 1, fun c hc => ?_⟩
    obtain ⟨i, c', hr, hf, hc'⟩ := register_new ((buf.drop off).take 8 ++ [0]) hc hk hlt
    rw [loadEntries_inside hin, if_neg hnext, hr]
    dsimp only
    rw [hf]
    dsimp only
    have hout := loadSnapshot_outcome (hc'.housed i) (buf.drop (off + 17)) (entryLength buf off)
    cases hl : (c'.books i).loadSnapshot V (buf.drop (off + 17)) (entryLength buf off) with
    | overread => trivial
    | offGrid => trivial
    | done ok b =>
      rw [hl] at hout
      cases ok with
      | false => exact hc'.active
      | true =>
        unfold entrySound at hs
        rw [decide_eq_true hin, decide_eq_true (Nat.not_lt.mp hnext), decide_eq_true hk, hout.1, hout.2.1] at hs
        cases hs
  · refine ⟨keys.length, fun c hc => ?_⟩
    unfold Cluster.loadEntries
    by_cases hu : buf.length < u64 (off + 9 + 8)
    · rw [if_pos hu]
      exact hc.active
    · rw [if_neg hu, show Cluster.readEntry buf off = none from if_neg hin]
      trivial

/-- What the end of the loop says of the buffer. -/
theorem loadEntries_outcome (V : Env) (N : Nat) (buf : List UInt8) (n off : Nat) (keys : List Nat) (hn : keys.length + n ≤ N) :
    ∃ M, ∀ c : Cluster N, c.Lists V keys →
      match Cluster.loadEntries V buf buf.length n off c with
      | .overread | .offGrid => entriesSound V buf n off keys = false
      | .done false c' => entriesSound V buf n off keys = false ∧ c'.activeCount = M
      | .done true _ => entriesSound V buf n off keys = true := by
  induction n generalizing off keys with
  | zero => exact ⟨0, fun c _ => rfl⟩
  | succ n ih =>
    have hlt : keys.length < N := by omega
    unfold entriesSound
    cases hs : entrySound V buf off keys with
    | true =>
      obtain ⟨M, hM⟩ := ih (entryNext buf off) (entryKey buf off :: keys) (by rw [length_cons]; omega)
      refine ⟨M, fun c hc => ?_⟩
      obtain ⟨c', hc', he⟩ := loadEntries_sound hc hlt hs
      rw [he, Bool.true_and]
      exact hM c' hc'
    | false =>
      obtain ⟨M, hM⟩ := loadEntries_unsound n hlt hs
      refine ⟨M, fun c hc => ?_⟩
      have hend := hM c hc
      rw [Bool.false_and]
      cases hl : Cluster.loadEntries V buf buf.length (n + 1) off c with
      | overread => rfl
      | offGrid => rfl
      | done ok c' =>
        rw [hl] at hend
        cases ok with
        | false => exact ⟨rfl, hend⟩
        | true => exact hend.elim

theorem Cluster.loadSnapshot_eq {len : Nat} (h : 16 ≤ buf.length) : c.loadSnapshot V buf len =
    if passesClusterHeader N buf len then Cluster.loadEntries V buf len (headerCount buf) 16 (c.reset V) else .done false c := by
  unfold Cluster.loadSnapshot passesClusterHeader headerIs headerCount
  rw [header_reads h]
  obtain ⟨magic, version, count⟩ := snapshotHeader.get buf
  exact headerChecks_eq _ _

theorem fresh_housed (V : Env) : (fresh V).Housed V := Reach.housed (P := fun _ _ _ => True) .init

theorem book_load_safe : (∀ b : Book, b.Housed V → Load.Safe b (b.loadSnapshot V buf buf.length)) ↔
    (passesHeader buf buf.length = true → recordsSound V buf) := by
  constructor
  · intro hall hp
    have hsafe := hall (fresh V) (fresh_housed V)
    have hout := loadSnapshot_outcome (fresh_housed V) buf buf.length
    cases hl : (fresh V).loadSnapshot V buf buf.length with
    | overread =>
      rw [hl] at hsafe
      exact hsafe.elim
    | offGrid =>
      rw [hl] at hsafe
      exact hsafe.elim
    | done ok b' =>
      rw [hl] at hsafe hout
      cases ok with
      | true => exact hout.2.1
      | false =>
        rcases hout with ⟨h1, -⟩ | ⟨-, -, h1, -⟩
        · rw [h1] at hp
          cases hp
        · -- every slot is taken, which is not so of a fresh book
          rw [hsafe rfl] at h1
          have h0 : 0 = V.MAX_ORDERS := h1
          have := V.max_orders_pos
          omega
  · intro hs b hb
    have hout := loadSnapshot_outcome hb buf buf.length
    cases hl : b.loadSnapshot V buf buf.length with
    | overread =>
      rw [hl] at hout
      exact absurd ((hs (hout.2.2 hout.2.1)).symm.trans hout.1) (by decide)
    | offGrid =>
      rw [hl] at hout
      exact absurd ((hs (hout.2.2 hout.2.1)).symm.trans hout.1) (by decide)
    | done ok b' =>
      rw [hl] at hout
      intro hok
      cases hok
      rcases hout with ⟨-, he⟩ | ⟨h1, h2, -⟩
      · exact he
      · exact absurd ((hs h1).symm.trans h2) (by decide)

theorem freshCluster_housed (V : Env) (N : Nat) : (freshCluster V N).Housed V := fun _ => fresh_housed V

/-- Two clusters with different numbers of symbols. -/
theorem clusters_differ (hN : 0 < N) : ∃ c : Cluster N, c.Housed V ∧ c.activeCount = 1 := by
  have h0 : (freshCluster V N).Lists V [] := reset_lists (freshCluster_housed V N)
  obtain ⟨i, c, -, -, hc⟩ := register_new [65] h0 not_mem_nil hN
  exact ⟨c, hc.housed, hc.active⟩

theorem cluster_load_safe : (∀ c : Cluster N, c.Housed V → Load.Safe c (c.loadSnapshot V buf buf.length)) ↔
    (passesClusterHeader N buf buf.length = true → entriesSound V buf (headerCount buf) 16 []) := by
  by_cases h16 : 16 ≤ buf.length
  · by_cases hp : passesClusterHeader N buf buf.length
    · have hcount : headerCount buf ≤ N := by
        unfold passesClusterHeader at hp
        simp only [and_eq_true, decide_eq_true_eq] at hp
        exact hp.2
      obtain ⟨M, hM⟩ := loadEntries_outcome V N buf (headerCount buf) 16 [] (by simpa using hcount)
      have hload : ∀ c : Cluster N, c.loadSnapshot V buf buf.length =
          Cluster.loadEntries V buf buf.length (headerCount buf) 16 (c.reset V) := by
        intro c
        rw [Cluster.loadSnapshot_eq h16, if_pos hp]
      constructor
      · intro hall _
        by_contra hs
        -- a load that fails leaves `M` symbols, so it changes a cluster that had another number of them
        have hkey : ∀ c : Cluster N, c.Housed V → c.activeCount = M := by
          intro c hc
          have hsafe := hall c hc
          have hout := hM (c.reset V) (reset_lists hc)
          rw [hload] at hsafe
          cases hl : Cluster.loadEntries V buf buf.length (headerCount buf) 16 (c.reset V) with
          | overread =>
            rw [hl] at hsafe
            exact hsafe.elim
          | offGrid =>
            rw [hl] at hsafe
            exact hsafe.elim
          | done ok c' =>
            rw [hl] at hsafe hout
            cases ok with
            | true => exact absurd hout hs
            | false =>
              rw [← hsafe rfl]
              exact hout.2
        have hN : 0 < N := by
          rcases Nat.eq_zero_or_pos N with h0 | hpos
          · have hc0 : headerCount buf = 0 := by omega
            rw [hc0] at hs
            exact absurd rfl hs
          · exact hpos
        have h0 : 0 = M := hkey (freshCluster V N) (freshCluster_housed V N)
        obtain ⟨c, hc, h1⟩ := clusters_differ hN
        have := hkey c hc
        omega
      · intro hs c hc
        have hout := hM (c.reset V) (reset_lists hc)
        rw [hload]
        cases hl : Cluster.loadEntries V buf buf.length (headerCount buf) 16 (c.reset V) with
        | overread =>
          rw [hl] at hout
          exact absurd ((hs hp).symm.trans hout) (by decide)
        | offGrid =>
          rw [hl] at hout
          exact absurd ((hs hp).symm.trans hout) (by decide)
        | done ok c' =>
          rw [hl] at hout
          intro hok
          cases hok
          exact absurd ((hs hp).symm.trans hout.1) (by decide)
    · refine iff_of_true (fun c hc => ?_) fun h => absurd h hp
      rw [Cluster.loadSnapshot_eq h16, if_neg hp]
      exact fun _ => rfl
  · refine iff_of_true (fun c hc => ?_) fun h => ?_
    · unfold Cluster.loadSnapshot
      rw [if_pos (by omega)]
      exact fun _ => rfl
    · unfold passesClusterHeader at h
      rw [decide_eq_false h16] at h
      cases h

end

/-- A buffer is loaded without harm, whatever the book or the cluster, exactly if its header is refused or what follows
    the header is sound. -/
theorem load_snapshot_safe_iff (V : Env) (N : Nat) (buf : List UInt8) :
    ((∀ b : Book, b.Housed V → Load.Safe b (b.loadSnapshot V buf buf.length)) ↔
      (passesHeader buf buf.length = true → recordsSound V buf = true)) ∧
    ((∀ c : Cluster N, c.Housed V → Load.Safe c (c.loadSnapshot V buf buf.length)) ↔
      (passesClusterHeader N buf buf.length = true → entriesSound V buf (headerCount buf) 16 [] = true)) :=
  ⟨book_load_safe, cluster_load_safe⟩

/-- The load failed and left something that satisfies `f`. -/
def Load.failedWith {α : Type} (f : α → Bool) : Load α → Bool
  | .done false s => f s
  | _ => false

theorem Load.not_safe {α : Type} {f : α → Bool} {s : α} {l : Load α} (h : l.failedWith f) (hs : f s = false) :
    ¬ Load.Safe s l := by
  cases l with
  | overread => cases h
  | offGrid => cases h
  | done ok s' =>
    cases ok with
    | true => cases h
    | false =>
      intro hsafe
      rw [hsafe rfl] at h
      exact absurd (hs.symm.trans h) (by decide)

/-- A header that announces 2^58 records, the length of which wraps to 0. -/
def wrappedSnapshot : List UInt8 := snapshotHeader.put (SNAPSHOT_MAGIC, SNAPSHOT_VERSION, 2 ^ 58)

/-- `n` times the order SELL 1 at the price `p`. -/
def sellSnapshot (n : Nat) (p : Int) : List UInt8 :=
  let o : Order := { id := 1, side := .sell, priceTicks := p, totalQty := 1, displayedQty := 1, status := .open }
  snapshotHeader.put (SNAPSHOT_MAGIC, SNAPSHOT_VERSION, n) ++ orderRecord.putAll (List.replicate n o.record)

/-- The header of a cluster of one symbol, and nothing else. -/
def cutCluster : List UInt8 := snapshotHeader.put (Cluster.CLUSTER_SNAPSHOT_MAGIC, Cluster.CLUSTER_SNAPSHOT_VERSION, 1)

/-- A fresh book of 8 levels and 4 slots: a header alone makes it read behind the buffer, an order at price 8 makes it
    index level 8, five orders leave four of them behind a `false`. A cluster loses its symbol to a header alone. -/
theorem snapshot_load_unsafe :
    (fresh smallEnv).Housed smallEnv ∧ (fresh smallEnv).loadSnapshot smallEnv wrappedSnapshot wrappedSnapshot.length = .overread ∧
    (fresh smallEnv).loadSnapshot smallEnv (sellSnapshot 1 8) (sellSnapshot 1 8).length = .offGrid ∧
    ¬ Load.Safe (fresh smallEnv) ((fresh smallEnv).loadSnapshot smallEnv (sellSnapshot 5 3) (sellSnapshot 5 3).length) ∧
    ∃ c : Cluster 1, c.Housed smallEnv ∧ ¬ Load.Safe c (c.loadSnapshot smallEnv cutCluster cutCluster.length) := by
  refine ⟨fresh_housed smallEnv, rfl, rfl, ?_, ?_⟩
  · have hrun : ((fresh smallEnv).loadSnapshot smallEnv (sellSnapshot 5 3) (sellSnapshot 5 3).length).failedWith
        (fun b => b.core.activeOrders = 4) = true := by decide +kernel
    exact Load.not_safe hrun rfl
  · obtain ⟨c, hc, h1⟩ := clusters_differ Nat.one_pos
    refine ⟨c, hc, Load.not_safe (f := fun c => c.activeCount = 0) ?_ (by simp [h1])⟩
    rfl

end HftLab.OrderBook
