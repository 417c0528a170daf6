/-
  HftLab.OrderBook.RoundTrip — a saved book, loaded again.

  The two halves meet at the list of records. `load_snapshot` files the records one after the other
  (`Filed V rs c`): those that wait are among the stops and the others in the queue of their price, in the order
  of `rs`; sums, best prices and the peg list are made anew from the orders (`loadRecords_filed`). The records
  that `serialize_snapshot` writes, taken by price, are the queues of the saved book (`records_at`). So a book
  comes back as it was exactly if its own sums, best prices and peg list are the ones its orders give
  (`Restorable`).
-/

import HftLab.OrderBook.BestPrice
import HftLab.OrderBook.Conservation
import HftLab.OrderBook.LoadSafety
import HftLab.OrderBook.Sums
import HftLab.OrderBook.Values

namespace HftLab.OrderBook

open Lib Function List

/-! ## Filing records -/

/-- The record of a waiting stop. -/
def OrderRecord.waits (r : OrderRecord) : Bool := (r.write {}).isPendingStop

/-- The record of an order in the queue of `p`. -/
def OrderRecord.restsAt (r : OrderRecord) (p : Int) : Bool := !r.waits && r.priceTicks = p

/-- The records `rs` were filed in `c`, and nothing else. -/
structure Filed (V : Env) (rs : List OrderRecord) (c : Core) : Prop where
  links : Links V c []
  queue : ∀ p, (c.queue V p).map c.body = (rs.filter (·.restsAt p)).map (·.write {})
  stops : c.stopOrders.map c.body = (rs.filter (·.waits)).map (·.write {})
  sums : c.SummedBy (c.queue V)
  best : ∀ s, c.BestAt V s
  pegs : ∀ i, i ∈ c.pegOrders ↔ c.Queued V i ∧ (c.body i).type = .peg

/-- What filing the record `r` in the free slot `i` changes. -/
structure Files (V : Env) (r : OrderRecord) (i : Nat) (c d : Core) : Prop where
  links : Links V d []
  unqueued : ∀ p, i ∉ c.queue V p
  unparked : i ∉ c.stopOrders
  body : d.body = Function.update c.body i (r.write {})

section

variable {V : Env} {c c' d : Core} {rs : List OrderRecord} {r : OrderRecord} {b b' : Book} {i n off m : Nat} {p : Int} {s : Side}
    {buf : List UInt8}

theorem write_strip (r : OrderRecord) : (r.write {}).strip = r.write {} := rfl

theorem alloc_rest (ha : c.allocOrder = some (i, c')) : c'.body = update c.body i {} ∧ c'.levels = c.levels ∧
    c'.stopOrders = c.stopOrders ∧ c'.pegOrders = c.pegOrders ∧ c'.best = c.best := by
  unfold Core.allocOrder at ha
  split at ha
  · cases ha
  · cases ha
    refine ⟨Core.setOrder_body c i {}, rfl, rfl, rfl, ?_⟩
    funext s
    cases s <;> rfl

theorem tally_of_levels (h : d.levels = c.levels) : d.tally = c.tally := by
  unfold Core.tally
  rw [h]

/-- A record that waits goes to the stops. -/
theorem file_waits (hl : Links V c []) (ha : c.allocOrder = some (i, c')) (hr : r.waits)
    (hf : (c'.setOrder i (r.write (c'.pool i))).file V i = some d) :
    Files V r i c d ∧ d.queue V = c.queue V ∧ d.stopOrders = c.stopOrders ++ [i] ∧ d.tally = c.tally ∧ d.best = c.best ∧
      d.pegOrders = c.pegOrders := by
  obtain ⟨G, hF, hl', -⟩ := hl.alloc ha
  obtain ⟨hbody, hlev, hst, hpeg, hbest⟩ := alloc_rest ha
  have hi : i ∈ c.freeList V ++ c.stopOrders ++ [] := by
    rw [hF]
    simp
  rw [file_eq ha, if_pos (show (r.write {}).isPendingStop from hr)] at hf
  cases hf
  have h1 := hl'.setOrder_out (mem_append_right _ mem_cons_self) (r.write {})
  have h2 := h1.park mem_cons_self
  rw [erase_cons_head] at h2
  have h3 := h2.same (d := { c'.setOrder i (r.write {}) with stopOrders := c'.stopOrders ++ [i] }.indexOrder i)
    rfl rfl rfl rfl rfl
  refine ⟨⟨h3.links, hl.not_queued hi, fun hs => ?_, ?_⟩, h3.queue_eq, ?_, tally_of_levels hlev, ?_, hpeg⟩
  · have := hl.nodup
    rw [hF, append_nil] at this
    exact (nodup_cons.mp this).1 (mem_append_right _ hs)
  · show (c'.setOrder i (r.write {})).body = _
    rw [Core.setOrder_body, hbody, update_idem, write_strip]
  · show c'.stopOrders ++ [i] = _
    rw [hst]
  · rw [← hbest]
    funext s
    cases s <;> rfl

/-- Any other record goes to the queue of its price. -/
theorem file_rests (hl : Links V c []) (ha : c.allocOrder = some (i, c')) (hr : r.waits = false)
    (hf : (c'.setOrder i (r.write (c'.pool i))).file V i = some d) :
    Files V r i c d ∧ d.queue V = update (c.queue V) r.priceTicks (c.queue V r.priceTicks ++ [i]) ∧
      d.stopOrders = c.stopOrders ∧
      d.tally = update c.tally r.priceTicks ((c.tally r.priceTicks).plus (r.write {})) ∧
      (d.best (r.write {}).side.other = c.best (r.write {}).side.other ∧ d.best (r.write {}).side =
        if c.best (r.write {}).side = (r.write {}).side.noBest ∨
          (r.write {}).side.rank r.priceTicks < (r.write {}).side.rank (c.best (r.write {}).side) then r.priceTicks
        else c.best (r.write {}).side) ∧
      d.pegOrders = if (r.write {}).type = .peg then c.pegOrders ++ [i] else c.pegOrders := by
  obtain ⟨G, hF, hl', -⟩ := hl.alloc ha
  obtain ⟨hbody, hlev, hst, hpeg, hbest⟩ := alloc_rest ha
  have hi : i ∈ c.freeList V ++ c.stopOrders ++ [] := by
    rw [hF]
    simp
  rw [file_eq ha, if_neg (by rw [show (r.write {}).isPendingStop = false from hr]; decide)] at hf
  split at hf
  · rename_i hrange
    cases hf
    have h1 := hl'.settle (o := r.write {}) mem_cons_self hrange
    rw [erase_cons_head] at h1
    -- the peg list is all that the branch on the type changes
    obtain ⟨e, hed, he⟩ : ∃ e : Core, (if (r.write {}).type = .peg then
        { c'.settle i (r.write {}) with pegOrders := c'.pegOrders ++ [i] } else c'.settle i (r.write {})) = e ∧
        e = { c'.settle i (r.write {}) with pegOrders := if (r.write {}).type = .peg then c'.pegOrders ++ [i] else c'.pegOrders } := by
      refine ⟨_, rfl, ?_⟩
      split <;> rfl
    rw [hed]
    obtain ⟨x, y, hxy⟩ := e.raiseBest_eq r.priceTicks (r.write {}).side
    have h2 := Layout.raiseBest (h1.same (d := e) (by rw [he]) (by rw [he]) (by rw [he]) (by rw [he]) (by rw [he]))
      (r.write {}).side r.priceTicks
    have hside := raiseBest_side e (r.write {}).side r.priceTicks
    have hbe : e.best = c.best := by
      rw [← hbest, he]
      funext s
      cases s <;> rfl
    rw [hbe] at hside
    refine ⟨⟨h2.links, hl.not_queued hi, fun hs => ?_, ?_⟩, h2.queue_eq, ?_, ?_, hside, ?_⟩
    · have := hl.nodup
      rw [hF, append_nil] at this
      exact (nodup_cons.mp this).1 (mem_append_right _ hs)
    · rw [hxy, he]
      show (c'.settle i (r.write {})).body = _
      rw [Core.settle_body, hbody, update_idem, write_strip]
    · rw [hxy, he]
      exact hst
    · rw [hxy, he]
      show (c'.settle i (r.write {})).tally = _
      rw [settle_tally, tally_of_levels hlev]
      rfl
    · rw [hxy, he]
      rw [hpeg]
  · cases hf

theorem Files.frame (h : Files V r i c d) {l : List Nat} (hi : i ∉ l) : ∀ j ∈ l, d.body j = c.body j := by
  intro j hj
  rw [h.body]
  refine update_of_ne ?_ ..
  rintro rfl
  exact hi hj

theorem filter_snoc {α : Type} {f : α → Bool} {a : α} (h : f a) (l : List α) :
    (l ++ [a]).filter f = l.filter f ++ [a] := by
  rw [filter_append, filter_cons_of_pos h, filter_nil]

theorem filter_skip {α : Type} {f : α → Bool} {a : α} (h : f a = false) (l : List α) : (l ++ [a]).filter f = l.filter f := by
  rw [filter_append, filter_cons_of_neg (by simp [h]), filter_nil, append_nil]

/-- One pass of the loop. -/
theorem Filed.file (h : Filed V rs c) (ha : c.allocOrder = some (i, c'))
    (hf : (c'.setOrder i (r.write (c'.pool i))).file V i = some d) : Filed V (rs ++ [r]) d := by
  cases hr : r.waits with
  | true =>
    obtain ⟨hfile, hq, hs, ht, hb, hp⟩ := file_waits h.links ha hr hf
    have hBi : d.body i = r.write {} := by rw [hfile.body, update_self]
    have hB : ∀ q, ∀ j ∈ c.queue V q, d.body j = c.body j := fun q => hfile.frame (hfile.unqueued q)
    refine ⟨hfile.links, fun q => ?_, ?_, ?_, fun s => ?_, fun j => ?_⟩
    · have hno : r.restsAt q = false := by
        unfold OrderRecord.restsAt
        rw [hr]
        rfl
      rw [filter_skip (f := fun (r : OrderRecord) => r.restsAt q) hno, hq, ← h.queue q]
      exact map_congr_left (hB q)
    · rw [filter_snoc hr, hs, map_append, map_append, ← h.stops, map_congr_left (hfile.frame hfile.unparked),
        map_singleton, map_singleton, hBi]
    · rw [hq]
      exact h.sums.frame ht hB
    · refine (h.best s).congr (by rw [hb]) fun q => ?_
      unfold Core.Rests
      rw [hq]
      exact exists_congr fun j => and_congr_right fun hj => by rw [hB q j hj]
    · rw [hp, h.pegs]
      unfold Core.Queued
      rw [hq]
      refine and_congr_right ?_
      rintro ⟨q, hj⟩
      rw [hB q j hj]
  | false =>
    obtain ⟨hfile, hq, hs, ht, ⟨hother, hside⟩, hp⟩ := file_rests h.links ha hr hf
    have hB : ∀ q, ∀ j ∈ c.queue V q, d.body j = c.body j := fun q => hfile.frame (hfile.unqueued q)
    have hBi : d.body i = r.write {} := by rw [hfile.body, update_self]
    refine ⟨hfile.links, fun q => ?_, ?_, ?_, ?_, fun j => ?_⟩
    · rw [hq]
      by_cases e : r.priceTicks = q
      · subst e
        have hyes : r.restsAt r.priceTicks := by
          unfold OrderRecord.restsAt
          rw [hr, decide_eq_true rfl]
          rfl
        rw [filter_snoc (f := fun (x : OrderRecord) => x.restsAt r.priceTicks) hyes, update_self, map_append, map_append,
          ← h.queue, map_congr_left (hB _),
          map_singleton, map_singleton, hBi]
      · have hno : r.restsAt q = false := by
          unfold OrderRecord.restsAt
          rw [decide_eq_false e, Bool.and_false]
        rw [filter_skip (f := fun (r : OrderRecord) => r.restsAt q) hno, update_of_ne (Ne.symm e), ← h.queue q]
        exact map_congr_left (hB q)
    · rw [filter_skip hr, hs, ← h.stops]
      exact map_congr_left (hfile.frame hfile.unparked)
    · rw [hq]
      refine h.sums.relevel ht (fun q _ => hB q) ?_
      rw [tallyOf_push, hBi, tallyOf_congr (hB _), h.sums]
    · refine Core.BestAt.raised h.best ?_ (fun u q => ?_) hother hside
      · rintro ⟨j, hj, -⟩
        exact absurd (h.links.grid _ j hj) (Side.not_inRange_noBest V _)
      · rw [Core.rests_push hq fun q j hj => by rw [hB q j hj], hBi]
    · have hqueued : d.Queued V j ↔ c.Queued V j ∨ j = i := by
        unfold Core.Queued
        rw [hq]
        constructor
        · rintro ⟨q, hj⟩
          by_cases e : q = r.priceTicks
          · subst e
            rw [update_self] at hj
            rcases mem_append.mp hj with hj | hj
            · exact .inl ⟨_, hj⟩
            · exact .inr (mem_singleton.mp hj)
          · rw [update_of_ne e] at hj
            exact .inl ⟨q, hj⟩
        · rintro (⟨q, hj⟩ | rfl)
          · refine ⟨q, ?_⟩
            by_cases e : q = r.priceTicks
            · subst e
              rw [update_self]
              exact mem_append_left _ hj
            · rwa [update_of_ne e]
          · exact ⟨r.priceTicks, by rw [update_self]; simp⟩
      have hnot : i ∉ c.pegOrders := by
        intro hi
        obtain ⟨⟨q, hj⟩, -⟩ := (h.pegs i).mp hi
        exact hfile.unqueued q hj
      rw [hqueued, hp]
      by_cases e : j = i
      · subst e
        rw [hBi]
        by_cases ht : (r.write {}).type = .peg
        · rw [if_pos ht]
          exact iff_of_true (by simp) ⟨.inr rfl, ht⟩
        · rw [if_neg ht]
          exact iff_of_false hnot fun hh => ht hh.2
      · have hmem : (j ∈ if (r.write {}).type = .peg then c.pegOrders ++ [i] else c.pegOrders) ↔ j ∈ c.pegOrders := by
          split
          · simp [e]
          · rfl
        rw [hmem, h.pegs j, hfile.body, update_of_ne e]
        simp [e]

/-- The whole loop. -/
theorem loadRecords_filed (hf : Filed V rs b.core) (h : Book.loadRecords V buf n off m b = .done true b') :
    Filed V (rs ++ orderRecord.getAll n (buf.drop off)) b'.core := by
  induction n generalizing off m b rs with
  | zero =>
    cases h
    rw [show orderRecord.getAll 0 (buf.drop off) = [] from rfl, append_nil]
    refine ⟨?_, hf.queue, hf.stops, hf.sums, fun s => ?_, hf.pegs⟩
    · refine Layout.links (F := b.core.freeList V) (Q := b.core.queue V) ?_
      exact Layout.same hf.links rfl rfl rfl rfl rfl
    · exact (hf.best s).congr (by cases s <;> rfl) fun _ => Iff.rfl
  | succ n ih =>
    unfold Book.loadRecords at h
    by_cases hread : off + orderRecord.size ≤ buf.length
    · rw [readAt_some orderRecord hread] at h
      rw [getAll_succ, append_cons]
      dsimp only at h
      split at h
      · cases h
      · rename_i i c ha
        split at h
        · cases h
        · rename_i d hd
          exact ih (hf.file ha hd) h
    · rw [readAt_none orderRecord (by omega)] at h
      cases h

theorem clear_filed (V : Env) : Filed V [] ((fresh V).clear V).core := by
  obtain ⟨G, hl, -⟩ := Links.clear (fresh_wf V).links
  have hq : ∀ q, ((fresh V).clear V).core.queue V q = [] := fun q => congrFun hl.queue_eq q
  refine ⟨hl.links, fun q => ?_, rfl, (fresh_summed V).clear (fresh_wf V), fun s => .inl ⟨by cases s <;> rfl, ?_⟩, fun i => ?_⟩
  · rw [hq]
    rfl
  · rintro q ⟨i, hi, -⟩
    rw [hq] at hi
    cases hi
  · refine iff_of_false not_mem_nil ?_
    rintro ⟨⟨q, hi⟩, -⟩
    rw [hq] at hi
    cases hi

/-! ## The records of a book -/

theorem record_write (o : Order) : o.record.write {} = { o.strip with pegCapTicks := 0 } := by
  unfold Order.record OrderRecord.write
  simp only [Side.ofByte_toByte, OrderType.ofByte_toByte, TimeInForce.ofByte_toByte, OrderStatus.ofByte_toByte]
  rfl

theorem record_waits (o : Order) : o.record.waits = o.isPendingStop := by
  unfold OrderRecord.waits
  rw [record_write]
  rfl

theorem flatMap_range_at {α : Type} {f : Nat → List α} {k n : Nat} (hk : k < n) (h : ∀ j, j ≠ k → f j = []) :
    (List.range n).flatMap f = f k := by
  induction n with
  | zero => cases hk
  | succ n ih =>
    rw [range_succ, flatMap_append, flatMap_singleton]
    by_cases e : k = n
    · subst e
      have hnil : (List.range k).flatMap f = [] := by
        rw [flatMap_eq_nil_iff]
        intro j hj
        have := mem_range.mp hj
        exact h j (by omega)
      rw [hnil, nil_append]
    · rw [ih (by omega), h n (Ne.symm e), append_nil]

theorem Wf.record_restsAt (hw : Wf V b) {q : Int} (hi : i ∈ b.core.queue V q) : (b.order i).record.restsAt p = decide (q = p) := by
  have hwaits : (b.order i).record.waits = false := (record_waits _).trans (hw.resting hi).not_pendingStop
  unfold OrderRecord.restsAt
  rw [hwaits, show (b.order i).record.priceTicks = q from hw.price hi]
  rfl

theorem Wf.record_waiting (hw : Wf V b) (hi : i ∈ b.core.stopOrders) : (b.order i).record.waits :=
  (record_waits _).trans ((hw.placed i).waiting hi).isPendingStop

/-- The records that go to the queue of `p` are those that come from it. -/
theorem Wf.records_at (hw : Wf V b) (p : Int) :
    (b.records V).filter (·.restsAt p) = (b.core.queue V p).map fun i => (b.order i).record := by
  have hstops : (b.core.stopOrders.map fun i => (b.order i).record).filter (·.restsAt p) = [] := by
    rw [filter_eq_nil_iff]
    intro r hr
    obtain ⟨i, hi, rfl⟩ := mem_map.mp hr
    unfold OrderRecord.restsAt
    rw [hw.record_waiting hi]
    exact Bool.false_ne_true
  have hlevel : ∀ q, ((b.core.queue V q).map fun i => (b.order i).record).filter (·.restsAt p) =
      if q = p then (b.core.queue V p).map fun i => (b.order i).record else [] := by
    intro q
    split
    · rename_i e
      subst e
      rw [filter_eq_self]
      intro r hr
      obtain ⟨i, hi, rfl⟩ := mem_map.mp hr
      rw [hw.record_restsAt hi]
      exact decide_eq_true rfl
    · rename_i e
      rw [filter_eq_nil_iff]
      intro r hr
      obtain ⟨i, hi, rfl⟩ := mem_map.mp hr
      rw [hw.record_restsAt hi, decide_eq_false e]
      exact Bool.false_ne_true
  unfold Book.records
  rw [filter_append, hstops, append_nil, filter_flatMap]
  simp only [hlevel]
  by_cases hr : inRange V p
  · obtain ⟨h0, h1⟩ := hr
    rw [flatMap_range_at (k := p.toNat) (by omega)]
    · rw [if_pos (by omega)]
    · intro j hj
      rw [if_neg (by omega)]
  · have hnil : b.core.queue V p = [] := by
      by_contra hne
      obtain ⟨i, hi⟩ := exists_mem_of_ne_nil _ hne
      exact hr (hw.links.grid p i hi)
    rw [hnil, map_nil]
    simp

/-- The records that wait are those of the stops. -/
theorem Wf.records_waiting (hw : Wf V b) :
    (b.records V).filter (·.waits) = b.core.stopOrders.map fun i => (b.order i).record := by
  unfold Book.records
  rw [filter_append, filter_flatMap]
  have hlevels : (List.range V.LEVELS.toNat).flatMap (fun (q : Nat) =>
      ((b.core.queue V q).map fun i => (b.order i).record).filter (·.waits)) = [] := by
    rw [flatMap_eq_nil_iff]
    intro q _
    rw [filter_eq_nil_iff]
    intro r hr
    obtain ⟨i, hi, rfl⟩ := mem_map.mp hr
    rw [record_waits, show (b.order i).isPendingStop = false from (hw.resting hi).not_pendingStop]
    exact Bool.false_ne_true
  rw [hlevels, nil_append, filter_eq_self]
  intro r hr
  obtain ⟨i, hi, rfl⟩ := mem_map.mp hr
  exact hw.record_waiting hi

/-- The count in the header is the number of records. -/
theorem Wf.records_length (hw : Wf V b) (hx : b.inFlight = []) : (b.records V).length = b.core.activeOrders := by
  have hlen : (b.records V).length = (b.core.restingSlots V).length + b.core.stopOrders.length := by
    unfold Book.records Core.restingSlots
    simp [length_flatMap]
  have hp := hw.partition.length_eq
  have ha := hw.links.active
  rw [hx] at hp
  simp only [length_append, length_nil, length_range] at hp
  omega

/-- The fields of a record have room for the order. -/
theorem Order.Machine.record_good {o : Order} (h : o.Machine) (h0 : 0 ≤ o.filledQty) (h1 : o.filledQty ≤ o.totalQty)
    (h2 : 0 ≤ o.displayedQty) (h3 : o.displayedQty ≤ o.totalQty) : orderRecord.good o.record := by
  have hside : o.side.toByte < 256 ^ 1 := by cases o.side <;> decide
  have htype : o.type.toByte < 256 ^ 1 := by cases o.type <;> decide
  have htif : o.tif.toByte < 256 ^ 1 := by cases o.tif <;> decide
  have hstatus : o.status.toByte < 256 ^ 1 := by cases o.status <;> decide
  exact ⟨h.id, h.clientId, h.price, h.total, isInt32_between h.total h0 h1, isInt32_between h.total h2 h3, hside, htype, htif,
    hstatus, h.submitted, h.expires, h.trigger, h.offset, h.iceberg⟩

theorem Wf.records_good (hw : Wf V b) (hm : b.Machine) : ∀ r ∈ b.records V, orderRecord.good r := by
  intro r hr
  rcases mem_append.mp hr with hr | hr
  · obtain ⟨q, -, hr⟩ := mem_flatMap.mp hr
    obtain ⟨i, hi, rfl⟩ := mem_map.mp hr
    have h := hw.resting hi
    have h1 := h.filled
    have h2 := h.left
    have h3 : 0 ≤ (b.core.body i).totalQty - (b.core.body i).filledQty - (b.core.body i).displayedQty := h.hidden
    exact (hm i).record_good h1 (by omega) h.shown (by omega)
  · obtain ⟨i, hi, rfl⟩ := mem_map.mp hr
    have h := (hw.placed i).waiting hi
    have h1 := h.filled
    have h2 := h.qty
    have h3 := h.shown
    exact (hm i).record_good (by omega) (by omega) (by omega) (by omega)

theorem Wf.records_onGrid (hw : Wf V b) : (b.records V).all (·.onGrid V) := by
  rw [all_eq_true]
  intro r hr
  unfold OrderRecord.onGrid
  rcases mem_append.mp hr with hr | hr
  · obtain ⟨q, -, hr⟩ := mem_flatMap.mp hr
    obtain ⟨i, hi, rfl⟩ := mem_map.mp hr
    have hp : (b.order i).record.priceTicks = q := hw.price hi
    rw [hp, decide_eq_true (hw.links.grid q i hi), Bool.or_true]
  · obtain ⟨i, hi, rfl⟩ := mem_map.mp hr
    rw [show ((b.order i).record.write {}).isPendingStop from hw.record_waiting hi, Bool.true_or]

/-! ## Save, then load -/

theorem active_le (hw : Wf V b) : b.core.activeOrders ≤ V.MAX_ORDERS := by
  have := hw.links.active
  omega

theorem max_orders_lt (V : Env) : V.MAX_ORDERS < 2147483648 := by
  have h : (V.MAX_ORDERS : Int) ≤ 2147483647 := V.max_orders_int32
  omega

theorem snapshotSizeEstimate_eq (hw : Wf V b) : b.snapshotSizeEstimate = 16 + b.core.activeOrders * 64 := by
  have h1 := active_le hw
  have h2 := max_orders_lt V
  show (16 + b.core.activeOrders * 64) % 18446744073709551616 = _
  omega

/-- The bytes written are as many as was estimated. -/
theorem serializeSnapshot_eq (hw : Wf V b) (hx : b.inFlight = []) (hlen : b.snapshotSizeEstimate ≤ buf.length) :
    b.serializeSnapshot V buf = (16 + b.core.activeOrders * 64,
      snapshotHeader.put (SNAPSHOT_MAGIC, SNAPSHOT_VERSION, b.core.activeOrders) ++
        (orderRecord.putAll (b.records V) ++ buf.drop (16 + b.core.activeOrders * 64))) := by
  have hout : (snapshotHeader.put (SNAPSHOT_MAGIC, SNAPSHOT_VERSION, b.core.activeOrders) ++
      orderRecord.putAll (b.records V)).length = 16 + b.core.activeOrders * 64 := by
    rw [length_append, snapshotHeader.length, orderRecord.putAll_length, hw.records_length hx]
    rfl
  unfold Book.serializeSnapshot
  rw [if_neg (by omega)]
  dsimp only
  rw [hout, append_assoc]

/-- A saved book is loaded, and its records are filed. -/
theorem load_saved (hw : Wf V b) (hx : b.inFlight = []) (hm : b.Machine) (hbuf : b.snapshotSizeEstimate ≤ buf.length)
    {len : Nat} (h1 : (b.serializeSnapshot V buf).1 ≤ len) :
    ∃ b', (fresh V).loadSnapshot V (b.serializeSnapshot V buf).2 len = .done true b' ∧ Filed V (b.records V) b'.core := by
  have hcount := active_le hw
  have hmax := max_orders_lt V
  have hest := snapshotSizeEstimate_eq hw
  rw [serializeSnapshot_eq hw hx hbuf] at h1 ⊢
  obtain ⟨tail, htail⟩ : ∃ tail, buf.drop (16 + b.core.activeOrders * 64) = tail := ⟨_, rfl⟩
  obtain ⟨out, hout⟩ : ∃ out, snapshotHeader.put (SNAPSHOT_MAGIC, SNAPSHOT_VERSION, b.core.activeOrders) ++
      (orderRecord.putAll (b.records V) ++ tail) = out := ⟨_, rfl⟩
  rw [htail, hout]
  have hgood : snapshotHeader.good (SNAPSHOT_MAGIC, SNAPSHOT_VERSION, b.core.activeOrders) := by
    refine ⟨(by decide : SNAPSHOT_MAGIC < 256 ^ 4), (by decide : SNAPSHOT_VERSION < 256 ^ 4), ?_⟩
    show b.core.activeOrders < 18446744073709551616
    omega
  have hget : snapshotHeader.get out = (SNAPSHOT_MAGIC, SNAPSHOT_VERSION, b.core.activeOrders) := by
    rw [← hout]
    exact snapshotHeader.get_put _ _ hgood
  have hheader : headerCount out = b.core.activeOrders := by
    unfold headerCount
    rw [hget]
  have hlenout : out.length = 16 + (b.core.activeOrders * 64 + tail.length) := by
    rw [← hout, length_append, length_append, snapshotHeader.length, orderRecord.putAll_length, hw.records_length hx]
    rfl
  have hrecs : orderRecord.getAll (headerCount out) (out.drop 16) = b.records V := by
    have hdrop : out.drop 16 = orderRecord.putAll (b.records V) ++ tail := by
      rw [← hout]
      exact drop_left' (snapshotHeader.length _)
    rw [hdrop, hheader, ← hw.records_length hx]
    exact orderRecord.getAll_put (hw.records_good hm) tail
  have hpass : passesHeader out len := by
    have hu : u64 (16 + u64 (b.core.activeOrders * 64)) ≤ 16 + b.core.activeOrders * 64 := by
      unfold u64 uint64Size
      omega
    unfold passesHeader headerIs
    rw [hget, hheader]
    simp only [orderRecord_size, Bool.and_eq_true, decide_eq_true_eq]
    exact ⟨⟨by omega, trivial, trivial⟩, decide_eq_true (hu.trans h1)⟩
  have hsound : recordsSound V out := by
    unfold recordsSound
    rw [hrecs, hw.records_onGrid, hheader, orderRecord_size]
    simp only [Bool.and_eq_true, decide_eq_true_eq]
    exact ⟨⟨by omega, hcount⟩, trivial⟩
  have hend := loadSnapshot_outcome (fresh_housed V) out len
  cases hl : (fresh V).loadSnapshot V out len with
  | overread =>
    rw [hl] at hend
    exact absurd (hsound.symm.trans hend.1) (by decide)
  | offGrid =>
    rw [hl] at hend
    exact absurd (hsound.symm.trans hend.1) (by decide)
  | done ok b' =>
    rw [hl] at hend
    cases ok with
    | false =>
      rcases hend with ⟨h, -⟩ | ⟨-, h, -⟩
      · exact absurd (hpass.symm.trans h) (by decide)
      · exact absurd (hsound.symm.trans h) (by decide)
    | true =>
      refine ⟨b', rfl, ?_⟩
      rw [loadSnapshot_eq (by omega), if_pos hpass] at hl
      have hf := loadRecords_filed (clear_filed V) hl
      rwa [nil_append, hrecs] at hf

/-! ## The same book -/

/-- What the peg list has of slot `i`: the offset and the cap. -/
def Core.pegAt (c : Core) (i : Nat) : Option (Int × Int) :=
  if i ∈ c.pegOrders then some ((c.body i).pegOffsetTicks, (c.body i).pegCapTicks) else none

/-- The same orders in the same order, sums, best prices and pegs. -/
structure SameBook (V : Env) (b b' : Book) : Prop where
  queue : ∀ p, ((b'.core.queue V p).map fun i => (b'.order i).record) = (b.core.queue V p).map fun i => (b.order i).record
  stops : (b'.core.stopOrders.map fun i => (b'.order i).record) = b.core.stopOrders.map fun i => (b.order i).record
  sums : ∀ p, inRange V p → b'.core.tally p = b.core.tally p
  bestBid : b'.core.bestBid = b.core.bestBid
  bestAsk : b'.core.bestAsk = b.core.bestAsk
  pegs : ∀ p, (b'.core.queue V p).map b'.core.pegAt = (b.core.queue V p).map b.core.pegAt

/-- Saved to any buffer of the estimated size and loaded into a fresh book, `b` comes back. -/
def Book.RoundTrips (V : Env) (b : Book) : Prop :=
  ∀ buf : List UInt8, b.snapshotSizeEstimate ≤ buf.length →
    ∀ len, (b.serializeSnapshot V buf).1 ≤ len → len ≤ buf.length →
      ∃ b', (fresh V).loadSnapshot V (b.serializeSnapshot V buf).2 len = .done true b' ∧ SameBook V b b'

/-- What `b` keeps besides its orders is what its orders give: sums and best prices; the peg list names the resting orders
    of type PEG, and none of these has a cap. -/
structure Book.Restorable (V : Env) (b : Book) : Prop where
  sums : ∀ p, inRange V p → b.core.tally p = tallyOf b.core.body (b.core.queue V p)
  best : ∀ s, b.core.BestAt V s
  pegs : ∀ i, b.core.Queued V i → (i ∈ b.core.pegOrders ↔ (b.core.body i).type = .peg)
  caps : ∀ i, b.core.Queued V i → (b.core.body i).type = .peg → (b.core.body i).pegCapTicks = 0

theorem tallyOf_of_map {B B' : Nat → Order} {l l' : List Nat} (h : l'.map B' = l.map fun i => (B i).record.write {}) :
    tallyOf B' l' = tallyOf B l := by
  have hshown : shownSum B' l' = shownSum B l := by
    have := congrArg (fun os : List Order => (os.map fun o => o.displayedQty).sum) h
    simp only [map_map] at this
    exact this
  have hhidden : hiddenSum B' l' = hiddenSum B l := by
    have := congrArg (fun os : List Order => (os.map fun o => o.hiddenQty).sum) h
    simp only [map_map] at this
    exact this
  have hlen : l'.length = l.length := by
    have := congrArg List.length h
    simpa using this
  unfold tallyOf
  rw [hshown, hhidden, hlen]

/-- A cache that is right has one value only. -/
theorem Core.BestAt.unique (hc : c.BestAt V s) (hd : d.BestAt V s) (hr : ∀ p, d.Rests V s p ↔ c.Rests V s p) :
    d.best s = c.best s := by
  rcases hc with ⟨h1, h2⟩ | ⟨h1, h2⟩
  · rcases hd with ⟨h3, -⟩ | ⟨h3, -⟩
    · rw [h1, h3]
    · exact absurd ((hr _).mp h3) (h2 _)
  · rcases hd with ⟨-, h4⟩ | ⟨h3, h4⟩
    · exact absurd ((hr _).mpr h1) (h4 _)
    · have h5 := h4 _ ((hr _).mpr h1)
      have h6 := h2 _ ((hr _).mp h3)
      exact Side.rank_inj (s := s) (by omega)

/-- What filing the records of `b` gives, slot for slot of a queue. -/
theorem Filed.queue_of (h : Filed V (b.records V) c) (hw : Wf V b) (p : Int) :
    (c.queue V p).map c.body = (b.core.queue V p).map fun i => (b.core.body i).record.write {} := by
  rw [h.queue p, hw.records_at p, map_map]
  rfl

theorem Filed.rests_iff (h : Filed V (b.records V) c) (hw : Wf V b) (p : Int) : c.Rests V s p ↔ b.core.Rests V s p := by
  have hq := congrArg (List.map Order.side) (h.queue_of hw p)
  simp only [map_map] at hq
  have hside : (fun i => (b.core.body i).side) = Order.side ∘ fun i => (b.core.body i).record.write {} := by
    funext i
    exact (Side.ofByte_toByte _).symm
  rw [← hside] at hq
  have hmem : ∀ (e : Core), e.Rests V s p ↔ s ∈ (e.queue V p).map fun i => (e.body i).side := by
    intro e
    rw [mem_map]
    rfl
  rw [hmem, hmem, ← hq]
  rfl

theorem Filed.pegs_of (h : Filed V (b.records V) c) (hw : Wf V b) (p : Int) : (c.queue V p).map c.pegAt =
    (b.core.queue V p).map fun i =>
      if (b.core.body i).type = .peg then some ((b.core.body i).pegOffsetTicks, 0) else none := by
  have hq := h.queue_of hw p
  have hcap : ∀ i ∈ c.queue V p, (c.body i).pegCapTicks = 0 := by
    intro i hi
    have hmem : c.body i ∈ (c.queue V p).map c.body := mem_map_of_mem hi
    rw [hq] at hmem
    obtain ⟨j, -, hj⟩ := mem_map.mp hmem
    rw [← hj]
    rfl
  have hinfo : ∀ i ∈ c.queue V p, c.pegAt i =
      (fun o : Order => if o.type = .peg then some (o.pegOffsetTicks, 0) else none) (c.body i) := by
    intro i hi
    unfold Core.pegAt
    rw [hcap i hi]
    by_cases ht : (c.body i).type = .peg
    · rw [if_pos ((h.pegs i).mpr ⟨⟨p, hi⟩, ht⟩)]
      exact (if_pos ht).symm
    · rw [if_neg fun hm => ht ((h.pegs i).mp hm).2]
      exact (if_neg ht).symm
  rw [map_congr_left hinfo]
  have := congrArg (List.map fun o : Order => if o.type = .peg then some (o.pegOffsetTicks, (0 : Int)) else none) hq
  rw [map_map, map_map] at this
  refine this.trans (map_congr_left fun i _ => ?_)
  show (if ((b.core.body i).record.write {}).type = .peg then some ((b.core.body i).pegOffsetTicks, (0 : Int)) else none) = _
  rw [record_write]
  rfl

theorem record_write_record (o : Order) : (o.record.write {}).record = o.record := by
  rw [record_write]
  rfl

/-- The loaded book is the saved one exactly if that was restorable. -/
theorem Filed.sameBook_iff (h : Filed V (b.records V) b'.core) (hw : Wf V b) : SameBook V b b' ↔ b.Restorable V := by
  have hsums : ∀ p, b'.core.tally p = tallyOf b.core.body (b.core.queue V p) := fun p =>
    (h.sums p).trans (tallyOf_of_map (h.queue_of hw p))
  constructor
  · intro hs
    have hpeg : ∀ p, ∀ i ∈ b.core.queue V p, b.core.pegAt i =
        if (b.core.body i).type = .peg then some ((b.core.body i).pegOffsetTicks, 0) else none := by
      intro p
      exact map_inj_left.mp ((hs.pegs p).symm.trans (h.pegs_of hw p))
    refine ⟨fun p hp => ?_, fun s => ?_, ?_, ?_⟩
    · rw [← hs.sums p hp, hsums]
    · refine (h.best s).congr ?_ fun p => (h.rests_iff hw p).symm
      cases s
      · exact hs.bestBid.symm
      · exact hs.bestAsk.symm
    · rintro i ⟨p, hi⟩
      have := hpeg p i hi
      unfold Core.pegAt at this
      by_cases hm : i ∈ b.core.pegOrders
      · rw [if_pos hm] at this
        refine iff_of_true hm ?_
        by_contra ht
        rw [if_neg ht] at this
        cases this
      · rw [if_neg hm] at this
        refine iff_of_false hm fun ht => ?_
        rw [if_pos ht] at this
        cases this
    · rintro i ⟨p, hi⟩ ht
      have := hpeg p i hi
      unfold Core.pegAt at this
      rw [if_pos ht] at this
      split at this
      · simp only [Option.some.injEq, Prod.mk.injEq, true_and] at this
        exact this
      · cases this
  · intro hr
    refine ⟨fun p => ?_, ?_, fun p hp => ?_, ?_, ?_, fun p => ?_⟩
    · have := congrArg (List.map Order.record) (h.queue_of hw p)
      rw [map_map, map_map] at this
      exact this.trans (map_congr_left fun i _ => record_write_record _)
    · have hst := h.stops
      rw [hw.records_waiting] at hst
      have := congrArg (List.map Order.record) hst
      rw [map_map, map_map, map_map] at this
      exact this.trans (map_congr_left fun i _ => record_write_record _)
    · rw [hsums, hr.sums p hp]
    · exact (hr.best .buy).unique (h.best .buy) (h.rests_iff hw)
    · exact (hr.best .sell).unique (h.best .sell) (h.rests_iff hw)
    · rw [h.pegs_of hw p]
      refine map_congr_left fun i hi => ?_
      unfold Core.pegAt
      by_cases ht : (b.core.body i).type = .peg
      · rw [if_pos ht, if_pos ((hr.pegs i ⟨p, hi⟩).mpr ht), hr.caps i ⟨p, hi⟩ ht]
      · rw [if_neg ht, if_neg fun hm => ht ((hr.pegs i ⟨p, hi⟩).mp hm)]

end

/-- In every run of saved calls, with a 64-bit clock and while the automatic ids do not wrap, a book makes the round trip
    exactly if it is restorable. -/
theorem snapshot_round_trip_iff {V : Env} {b : Book} (hclock : ∀ m, V.clock m < uint64Size)
    (h : Book.Reach V (fun b op _ => op.saved = true ∧ b.core.nextOrderId < uint64Size) b) :
    b.RoundTrips V ↔ b.Restorable V := by
  obtain ⟨hw, hx⟩ := Reach.wf h
  have hm := Reach.machine hclock h
  constructor
  · intro hrt
    obtain ⟨buf, hbuf⟩ : ∃ buf : List UInt8, buf.length = b.snapshotSizeEstimate := ⟨List.replicate _ 0, List.length_replicate⟩
    have hlen : (b.serializeSnapshot V buf).1 = buf.length := by
      rw [serializeSnapshot_eq hw hx hbuf.ge, hbuf, snapshotSizeEstimate_eq hw]
    obtain ⟨b', hl, hsame⟩ := hrt buf hbuf.ge buf.length hlen.le le_rfl
    obtain ⟨b'', hl', hf⟩ := load_saved hw hx hm hbuf.ge hlen.le
    rw [hl] at hl'
    cases hl'
    exact (hf.sameBook_iff hw).mp hsame
  · intro hr buf hbuf len h1 _
    obtain ⟨b', hl, hf⟩ := load_saved hw hx hm hbuf h1
    exact ⟨b', hl, (hf.sameBook_iff hw).mpr hr⟩

/-- `smallEnv` with a 64-bit clock. -/
def savingEnv : Env :=
  { smallEnv with clock := fun n => min n 1000, clock_mono := fun _ _ h => min_le_min_right 1000 h }

theorem savingEnv_clock (m : Nat) : savingEnv.clock m < uint64Size := by
  have h : savingEnv.clock m ≤ 1000 := min_le_right m 1000
  have h2 : uint64Size = 18446744073709551616 := rfl
  omega

deriving instance DecidableEq for Tally

/-- `Book.Restorable`, computed. -/
def Book.restorable (V : Env) (b : Book) : Bool :=
  let prices := (List.range V.LEVELS.toNat).map fun (k : Nat) => (k : Int)
  let resting := fun s => prices.filter fun p => (b.core.queue V p).any fun i => (b.core.body i).side = s
  prices.all (fun p => b.core.tally p = tallyOf b.core.body (b.core.queue V p) && (b.core.queue V p).all fun i =>
    decide (i ∈ b.core.pegOrders ↔ (b.core.body i).type = .peg) &&
      decide ((b.core.body i).type = .peg → (b.core.body i).pegCapTicks = 0)) &&
  [Side.buy, Side.sell].all fun s => ((resting s).isEmpty && b.core.best s = s.noBest) ||
    (b.core.best s ∈ resting s && (resting s).all fun p => s.rank (b.core.best s) ≤ s.rank p)

theorem restorable_sound {V : Env} {b : Book} (hw : Wf V b) (h : b.restorable V) : b.Restorable V := by
  unfold Book.restorable at h
  dsimp only at h
  rw [Bool.and_eq_true, all_eq_true, all_eq_true] at h
  obtain ⟨hp, hs⟩ := h
  have hmem : ∀ p, inRange V p → p ∈ (List.range V.LEVELS.toNat).map fun (k : Nat) => (k : Int) := by
    rintro p ⟨h0, h1⟩
    exact mem_map.mpr ⟨p.toNat, mem_range.mpr (by omega), by omega⟩
  have hlevel : ∀ p, inRange V p → b.core.tally p = tallyOf b.core.body (b.core.queue V p) ∧ ∀ i ∈ b.core.queue V p,
      (i ∈ b.core.pegOrders ↔ (b.core.body i).type = .peg) ∧
        ((b.core.body i).type = .peg → (b.core.body i).pegCapTicks = 0) := by
    intro p hr
    have := hp p (hmem p hr)
    simpa only [Bool.and_eq_true, decide_eq_true_eq, all_eq_true] using this
  refine ⟨fun p hr => (hlevel p hr).1, fun s => ?_, ?_, ?_⟩
  · have hrests : ∀ p, b.core.Rests V s p ↔ p ∈ ((List.range V.LEVELS.toNat).map fun (k : Nat) => (k : Int)).filter
        fun p => (b.core.queue V p).any fun i => (b.core.body i).side = s := by
      intro p
      rw [mem_filter, any_eq_true]
      simp only [decide_eq_true_eq]
      constructor
      · rintro ⟨i, hi, hside⟩
        exact ⟨hmem p (hw.links.grid p i hi), i, hi, hside⟩
      · exact fun hh => hh.2
    have := hs s (by cases s <;> simp)
    rw [Bool.or_eq_true, Bool.and_eq_true, Bool.and_eq_true, all_eq_true, decide_eq_true_eq, decide_eq_true_eq] at this
    rcases this with ⟨h1, h2⟩ | ⟨h1, h2⟩
    · refine .inl ⟨h2, fun p hr => ?_⟩
      have := (hrests p).mp hr
      rw [List.isEmpty_iff.mp h1] at this
      cases this
    · refine .inr ⟨(hrests _).mpr h1, fun p hr => ?_⟩
      exact of_decide_eq_true (h2 p ((hrests p).mp hr))
  · rintro i ⟨p, hi⟩
    exact ((hlevel p (hw.links.grid p i hi)).2 i hi).1
  · rintro i ⟨p, hi⟩
    exact ((hlevel p (hw.links.grid p i hi)).2 i hi).2

/-- An iceberg, a waiting stop, a partly filled order and a peg without a cap come back. -/
theorem snapshot_round_trip_small : ∃ b, Book.runIf savingEnv 20
      (fun b op _ => op.saved && decide (b.core.nextOrderId < uint64Size))
      [.submit { side := .sell, type := .iceberg, priceTicks := 3, qty := 5, displayedQty := 2 },
       .submitStop .buy 5 6 4 0 7, .submit { side := .buy, priceTicks := 2, qty := 5 },
       .submit { side := .sell, priceTicks := 2, qty := 1 }, .submitPeg .buy (-1) 3 0 9 0] (fresh savingEnv) = some b ∧
    b.core.activeOrders = 4 ∧ b.RoundTrips savingEnv := by
  have hrun : (Book.runIf savingEnv 20 (fun b op _ => op.saved && decide (b.core.nextOrderId < uint64Size))
      [.submit { side := .sell, type := .iceberg, priceTicks := 3, qty := 5, displayedQty := 2 },
       .submitStop .buy 5 6 4 0 7, .submit { side := .buy, priceTicks := 2, qty := 5 },
       .submit { side := .sell, priceTicks := 2, qty := 1 }, .submitPeg .buy (-1) 3 0 9 0] (fresh savingEnv)).any
      (fun b => b.core.activeOrders = 4 && b.restorable savingEnv) = true := by decide +kernel
  obtain ⟨b, hb, hr, hf⟩ := Reach.ofRun hrun
    (fun _ _ _ h => by simpa using h)
  rw [Bool.and_eq_true, decide_eq_true_eq] at hf
  obtain ⟨hw, -⟩ := Reach.wf hr
  exact ⟨b, hb, hf.1, (snapshot_round_trip_iff savingEnv_clock hr).mpr (restorable_sound hw hf.2)⟩

/-- What a load of the saved book shows of it. -/
def Book.reloaded (V : Env) (b : Book) (f : Book → Bool) : Bool :=
  let buf := List.replicate b.snapshotSizeEstimate 0
  match (fresh V).loadSnapshot V (b.serializeSnapshot V buf).2 buf.length with
  | .done true b' => f b'
  | _ => false

theorem not_roundTrips {V : Env} {b : Book} {f : Book → Bool} (hl : (b.serializeSnapshot V
    (List.replicate b.snapshotSizeEstimate 0)).1 ≤ b.snapshotSizeEstimate) (h : b.reloaded V f)
    (hf : ∀ b', SameBook V b b' → f b' = false) : ¬ b.RoundTrips V := by
  intro hrt
  have hlen : (List.replicate b.snapshotSizeEstimate (0 : UInt8)).length = b.snapshotSizeEstimate := length_replicate
  obtain ⟨b', hb', hs⟩ := hrt _ hlen.ge _ (hl.trans hlen.ge) le_rfl
  unfold Book.reloaded at h
  dsimp only at h
  rw [hb'] at h
  exact absurd ((hf b' hs).symm.trans h) (by decide)

/-- A HIDDEN order is not in the best price before, but is after; a peg loses its cap. -/
theorem reloaded_book_differs :
    (∃ b, Book.runIf savingEnv 20 (fun b op _ => op.saved && decide (b.core.nextOrderId < uint64Size))
        [.submit { side := .sell, type := .hidden, priceTicks := 3, qty := 5 }] (fresh savingEnv) = some b ∧
      ¬ b.RoundTrips savingEnv) ∧
    ∃ b, Book.runIf savingEnv 20 (fun b op _ => op.saved && decide (b.core.nextOrderId < uint64Size))
        [.submitPeg .buy 0 3 0 9 5] (fresh savingEnv) = some b ∧ ¬ b.RoundTrips savingEnv := by
  constructor
  · have hrun : (Book.runIf savingEnv 20 (fun b op _ => op.saved && decide (b.core.nextOrderId < uint64Size))
        [.submit { side := .sell, type := .hidden, priceTicks := 3, qty := 5 }] (fresh savingEnv)).any
        (fun b => decide ((b.serializeSnapshot savingEnv (List.replicate b.snapshotSizeEstimate 0)).1 ≤ b.snapshotSizeEstimate) &&
          b.core.bestAsk = NO_ASK_TICKS && b.reloaded savingEnv fun b' => b'.core.bestAsk = 3) = true := by decide +kernel
    obtain ⟨b, hb, hf⟩ := (Option.any_eq_true _ _).mp hrun
    simp only [Bool.and_eq_true, decide_eq_true_eq] at hf
    refine ⟨b, hb, not_roundTrips hf.1.1 hf.2 fun b' hs => ?_⟩
    rw [hs.bestAsk, hf.1.2]
    rfl
  · have hrun : (Book.runIf savingEnv 20 (fun b op _ => op.saved && decide (b.core.nextOrderId < uint64Size))
        [.submitPeg .buy 0 3 0 9 5] (fresh savingEnv)).any
        (fun b => decide ((b.serializeSnapshot savingEnv (List.replicate b.snapshotSizeEstimate 0)).1 ≤ b.snapshotSizeEstimate) &&
          (b.core.queue savingEnv 0).map b.core.pegAt = [some (0, 5)] &&
          b.reloaded savingEnv fun b' => (b'.core.queue savingEnv 0).map b'.core.pegAt = [some (0, 0)]) = true := by
      decide +kernel
    obtain ⟨b, hb, hf⟩ := (Option.any_eq_true _ _).mp hrun
    simp only [Bool.and_eq_true, decide_eq_true_eq] at hf
    refine ⟨b, hb, not_roundTrips hf.1.1 hf.2 fun b' hs => ?_⟩
    rw [hs.pegs 0, hf.1.2]
    rfl

end HftLab.OrderBook
