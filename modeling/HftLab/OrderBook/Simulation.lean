/-
  HftLab.OrderBook.Simulation — the code against the reference book.

  `Book.ranked V b s`: the orders of side `s` in the levels, best price first, each level in its own
  order. A pass of the FIFO loop takes the head of that list, so a match is a `trade`
  (`matchAgainst_trades`).
-/

import HftLab.Lib.Ladder
import HftLab.OrderBook.Progress
import HftLab.OrderBook.Reference
import HftLab.OrderBook.Steady

namespace HftLab.OrderBook

open Lib Function List

/-! ## The levels as one list -/

def Order.ticket (o : Order) : Ticket := ⟨o.id, o.side, o.priceTicks, o.totalQty, o.filledQty, o.type⟩

/-- The queue of level `p`. -/
def Book.tickets (V : Env) (b : Book) (p : Int) : List Ticket := (b.core.queue V p).map fun i => (b.core.body i).ticket

/-- The prices of the grid, the best for side `s` first. -/
def ladder (V : Env) : Side → List Int
  | .buy => ((List.range V.LEVELS.toNat).map fun (k : Nat) => (k : Int)).reverse
  | .sell => (List.range V.LEVELS.toNat).map fun (k : Nat) => (k : Int)

def Book.ranked (V : Env) (b : Book) (s : Side) : List Ticket :=
  (ladder V s).flatMap fun p => (b.tickets V p).filter (·.side = s)

section

variable {V : Env} {b b' : Book} {p q : Int} {t ts i : Nat} {s : Side} {r : Request}
    {m : Ticket} {o : Order} {B : List Nat} {ok : Ticket → Bool} {b₀ b₁ : Book} {n : Nat}

theorem mem_ladder : p ∈ ladder V s ↔ inRange V p := by
  have h0 := mem_prices V p
  cases s with
  | buy => exact mem_reverse.trans h0
  | sell => exact h0

theorem ladder_sorted : (ladder V s).Pairwise fun p q => s.rank p < s.rank q := by
  have h0 : ((List.range V.LEVELS.toNat).map fun (k : Nat) => (k : Int)).Pairwise (· < ·) := by
    rw [pairwise_map]
    exact pairwise_lt_range.imp fun h => by omega
  cases s with
  | buy =>
    refine pairwise_reverse.mpr (h0.imp fun h => ?_)
    show -_ < -_
    omega
  | sell => exact h0

theorem mem_tickets : m ∈ b.tickets V p ↔ ∃ i ∈ b.core.queue V p, (b.core.body i).ticket = m := mem_map

theorem mem_ranked (h : m ∈ b.ranked V s) : m.side = s ∧ ∃ p, ∃ i ∈ b.core.queue V p, (b.core.body i).ticket = m := by
  obtain ⟨p, -, hm⟩ := mem_flatMap.mp h
  obtain ⟨h1, h2⟩ := mem_filter.mp hm
  exact ⟨by simpa using h2, p, mem_tickets.mp h1⟩

theorem Wf.ticket_price (hw : Wf V b) (hi : i ∈ b.core.queue V p) : (b.core.body i).ticket.price = p := hw.price hi

theorem Wf.rests_of_ranked (hw : Wf V b) (h : m ∈ b.ranked V s) : b.core.Rests V s m.price := by
  obtain ⟨hs, p, i, hi, rfl⟩ := mem_ranked h
  rw [hw.ticket_price hi]
  exact ⟨i, hi, hs⟩

/-- The list around level `p`; only that level may differ between the two books. -/
theorem ranked_split (hp : inRange V p) (s : Side) (b : Book) : ∃ X Y : List Ticket,
    (∀ m ∈ X, ∃ r, s.rank r < s.rank p ∧ m ∈ b.tickets V r ∧ m.side = s) ∧
    (∀ m ∈ Y, ∃ r, s.rank p < s.rank r ∧ m ∈ b.tickets V r ∧ m.side = s) ∧
    ∀ b' : Book, (∀ r, r ≠ p → b'.tickets V r = b.tickets V r) →
      b'.ranked V s = X ++ (b'.tickets V p).filter (·.side = s) ++ Y := by
  obtain ⟨X, Y, hX, hY, hg⟩ := rungs ladder_sorted (mem_ladder.mpr hp) fun p => (b.tickets V p).filter (·.side = s)
  refine ⟨X, Y, fun m hm => ?_, fun m hm => ?_, fun b' hb => ?_⟩
  · obtain ⟨r, hr, hm⟩ := hX m hm
    exact ⟨r, hr, (mem_filter.mp hm).1, by simpa using (mem_filter.mp hm).2⟩
  · obtain ⟨r, hr, hm⟩ := hY m hm
    exact ⟨r, hr, (mem_filter.mp hm).1, by simpa using (mem_filter.mp hm).2⟩
  · exact hg (fun p => (b'.tickets V p).filter (·.side = s)) fun r hr => by rw [hb r hr]

/-- An order joins its level: in the list it is behind all that are at least as good. -/
theorem ranked_enter (hw : Wf V b) (hp : inRange V m.price)
    (hb : b'.tickets V = update (b.tickets V) m.price (b.tickets V m.price ++ [m])) :
    b'.ranked V m.side = enter m (b.ranked V m.side) ∧ b'.ranked V m.side.other = b.ranked V m.side.other := by
  have hother : ∀ r, r ≠ m.price → b'.tickets V r = b.tickets V r := fun r hr => by rw [hb, update_of_ne hr]
  have hat : b'.tickets V m.price = b.tickets V m.price ++ [m] := by rw [hb, update_self]
  have hprice : ∀ r, ∀ k ∈ b.tickets V r, k.price = r := by
    intro r k hk
    obtain ⟨i, hi, rfl⟩ := mem_tickets.mp hk
    exact hw.ticket_price hi
  constructor
  · obtain ⟨X, Y, hX, hY, hsplit⟩ := ranked_split hp m.side b
    have h1 := hsplit b fun _ _ => rfl
    have h2 := hsplit b' hother
    have hpos : ∀ k ∈ X ++ (b.tickets V m.price).filter (·.side = m.side),
        decide (m.side.rank k.price ≤ m.side.rank m.price) = true := by
      intro k hk
      rw [decide_eq_true_eq]
      rcases mem_append.mp hk with hk | hk
      · obtain ⟨r, hr, hk, -⟩ := hX k hk
        rw [hprice r k hk]
        exact hr.le
      · rw [hprice _ k (mem_filter.mp hk).1]
    have hneg : ∀ k ∈ Y, decide (m.side.rank k.price ≤ m.side.rank m.price) = false := by
      intro k hk
      obtain ⟨r, hr, hk, -⟩ := hY k hk
      rw [hprice r k hk, decide_eq_false_iff_not]
      omega
    obtain ⟨ht, hd⟩ := takeWhile_split hpos hneg
    unfold enter
    rw [h2, h1, ht, hd, hat, filter_append, filter_singleton]
    simp
  · obtain ⟨X, Y, -, -, hsplit⟩ := ranked_split hp m.side.other b
    have hne : decide (m.side = m.side.other) = false := decide_eq_false (Side.other_ne _).symm
    rw [hsplit b' hother, hsplit b fun _ _ => rfl, hat, filter_append, filter_singleton, hne]
    simp

/-! ## One execution -/

/-- No iceberg rests in the book. -/
def Book.NoIceberg (V : Env) (b : Book) : Prop := ∀ p, ∀ i ∈ b.core.queue V p, (b.core.body i).type ≠ .iceberg

theorem Order.Visible.whole_shown (h : o.Visible) (hr : o.Resting) (ht : o.type ≠ .iceberg) : o.displayedQty = o.ticket.left := by
  have h1 := h.whole ht
  have h2 : 0 ≤ o.totalQty - o.filledQty - o.displayedQty := hr.hidden
  show o.displayedQty = o.totalQty - o.filledQty
  omega

/-- The head of level `p` after an execution of `x`. -/
def hit (m : Ticket) (x : Int) (ms : List Ticket) : List Ticket :=
  if m.left ≤ x then ms else { m with filled := m.filled + x } :: ms

theorem Order.ticket_left (o : Order) : o.ticket.left = o.totalQty - o.filledQty := rfl

theorem executed_tickets (hw : Wf V b) (hq : b.core.queue V p = i :: B) (ht : t ∈ b.inFlight)
    (hty : (b.core.body i).type ≠ .iceberg) (ts : Nat) (x : Int) : (b.executed V p t ts i x).tickets V =
      update (b.tickets V) p (hit (b.core.body i).ticket x (B.map fun j => (b.core.body j).ticket)) := by
  have hi : i ∈ b.core.queue V p := by rw [hq]; exact mem_cons_self
  have herase : (b.core.queue V p).erase i = B := hw.erase_eq (A := []) hq
  have hnd : i ∉ B := by
    have := (hw.links.level p).nodup
    rw [hq] at this
    exact (nodup_cons.mp this).1
  obtain ⟨o, l, hcase, hQ, hB⟩ := hw.executed_cases hi ht ts x
  have hbody : ∀ r, ∀ j ∈ b.core.queue V r, j ≠ i →
      ((b.executed V p t ts i x).core.body j).ticket = (b.core.body j).ticket := by
    intro r j hj hne
    rw [hB, update_of_ne hne, update_of_ne (hw.flying_ne_queued hj ht)]
  funext r
  by_cases e : r = p
  · subst e
    rw [update_self]
    unfold Book.tickets
    rw [hQ, update_self]
    have hrest : B.map (fun j => ((b.executed V r t ts i x).core.body j).ticket) = B.map fun j => (b.core.body j).ticket := by
      refine map_congr_left fun j hj => hbody r j (by rw [hq]; exact mem_cons_of_mem _ hj) ?_
      rintro rfl
      exact hnd hj
    have hi' : ((b.executed V r t ts i x).core.body i).ticket = o.ticket := by rw [hB, update_self]
    unfold hit
    cases hcase with
    | refresh _ _ _ _ hice => exact absurd hice hty
    | complete hd =>
      rw [herase, hrest, if_pos (by rw [Order.ticket_left]; omega)]
    | partial_ hlt _ =>
      rw [hq, map_cons, hrest, hi', if_neg (by rw [Order.ticket_left]; omega)]
      rfl
  · rw [update_of_ne e]
    unfold Book.tickets
    rw [hQ, update_of_ne e]
    refine map_congr_left fun j hj => hbody r j hj ?_
    rintro rfl
    exact e (hw.links.unique hj hi)

theorem executed_noIceberg (h : b.NoIceberg V) (hw : Wf V b) (hi : i ∈ b.core.queue V p) (ht : t ∈ b.inFlight) (ts : Nat)
    (x : Int) : (b.executed V p t ts i x).NoIceberg V := by
  obtain ⟨o, l, hcase, hQ, hB⟩ := hw.executed_cases hi ht ts x
  intro r j hj
  have hj' := (executed_aside hw hi ht ts x).sub r j hj
  rw [hB]
  by_cases e : j = i
  · subst e
    rw [update_self]
    have ho : o.type = (b.core.body j).type := by cases hcase <;> rfl
    rw [ho]
    exact h r j hj'
  · rw [update_of_ne e, update_of_ne (hw.flying_ne_queued hj' ht)]
    exact h r j hj'

/-- The best level of side `s` heads the list. -/
theorem ranked_front (hw : Wf V b) (hp : inRange V p) (hmin : ∀ r, b.core.Rests V s r → s.rank p ≤ s.rank r) :
    ∃ Y : List Ticket, (∀ m ∈ Y, s.rank p < s.rank m.price) ∧
      ∀ b' : Book, (∀ r, r ≠ p → b'.tickets V r = b.tickets V r) → (∀ m ∈ b'.tickets V p, m.side = s) →
        b'.ranked V s = b'.tickets V p ++ Y := by
  obtain ⟨X, Y, hX, hY, hsplit⟩ := ranked_split hp s b
  have hnil : X = [] := by
    refine eq_nil_iff_forall_not_mem.mpr fun m hm => ?_
    obtain ⟨r, hr, hmr, hs⟩ := hX m hm
    obtain ⟨j, hj, rfl⟩ := mem_tickets.mp hmr
    have := hmin r ⟨j, hj, hs⟩
    omega
  refine ⟨Y, fun m hm => ?_, fun b' hb hs => ?_⟩
  · obtain ⟨r, hr, hmr, -⟩ := hY m hm
    obtain ⟨j, hj, rfl⟩ := mem_tickets.mp hmr
    rw [hw.ticket_price hj]
    exact hr
  · rw [hsplit b' hb, hnil, nil_append, filter_eq_self.mpr fun m hm => by simpa using hs m hm]

/-- Level `p` has no order of side `s`, before and after. -/
theorem ranked_same (hp : inRange V p) (hb : ∀ r, r ≠ p → b'.tickets V r = b.tickets V r)
    (hs : ∀ m ∈ b.tickets V p, m.side ≠ s) (hs' : ∀ m ∈ b'.tickets V p, m.side ≠ s) : b'.ranked V s = b.ranked V s := by
  obtain ⟨X, Y, -, -, hsplit⟩ := ranked_split hp s b
  have hnil : ∀ l : List Ticket, (∀ m ∈ l, m.side ≠ s) → l.filter (·.side = s) = [] := by
    intro l hl
    rw [filter_eq_nil_iff]
    exact fun m hm => by simpa using hl m hm
  rw [hsplit b' hb, hsplit b fun _ _ => rfl, hnil _ hs, hnil _ hs']

/-! ## A match is a trade -/

/-- An execution of the head, whole or in part, and then the rest. -/
theorem trade_head {ms : List Ticket} (hq : 0 < q) (hm : ok m) :
    trade ok (m :: ms) q = ((trade ok (hit m (min q m.left) ms) (q - min q m.left)).1,
      (trade ok (hit m (min q m.left) ms) (q - min q m.left)).2.1,
      (m, min q m.left) :: (trade ok (hit m (min q m.left) ms) (q - min q m.left)).2.2) := by
  have h0 : ¬ (q ≤ 0 ∨ ok m = false) := by
    rintro (h | h)
    · omega
    · rw [hm] at h
      cases h
  rw [trade, if_neg h0]
  by_cases hle : m.left ≤ q
  · rw [if_pos hle, min_eq_right hle]
    unfold hit
    rw [if_pos le_rfl]
  · have hmin : min q m.left = q := min_eq_left (by omega)
    rw [if_neg hle, hmin]
    unfold hit
    rw [if_neg hle, Int.sub_self, trade, if_pos (.inl le_rfl)]

theorem trade_done {l : List Ticket} (h : q ≤ 0 ∨ ∀ m ∈ l, ok m = false) : trade ok l q = (l, q, []) := by
  cases l with
  | nil => rfl
  | cons m ms =>
    rw [trade, if_pos]
    rcases h with h | h
    · exact .inl h
    · exact .inr (h m mem_cons_self)

/-- What a report says about the fate of an order. -/
def Report.fates : Report → List (Nat × Fate)
  | .fill m _ q => if m.totalQty ≤ m.filledQty + q then [(m.id, .filled)] else []
  | .takerFilled o => [(o.id, .filled)]
  | .iocCancel o | .cancel o => [(o.id, .cancelled o.remainingQty)]
  | .rest o => [(o.id, .resting o.remainingQty)]
  | .reduce o newQty => [(o.id, .reduced newQty)]
  | _ => []

/-- The reports of the executions `fs` by a taker with id `id`, newest first. -/
structure Executes (id : Nat) (u : Side) (l : List Report) (fs : List (Ticket × Int)) : Prop where
  prints : l.reverse.filterMap Report.print = RefBook.prints id u fs
  fates : l.reverse.flatMap Report.fates = RefBook.filledBy fs
  fills : ∀ e ∈ l, ∃ m t q, e = .fill m t q

theorem Executes.nil (id : Nat) (u : Side) : Executes id u [] [] := ⟨rfl, rfl, fun e he => (by cases he)⟩

theorem Executes.step {id : Nat} {u : Side} {l : List Report} {fs : List (Ticket × Int)} (h : Executes id u l fs) {m : Order}
    (ho : o.id = id) (hs : o.side = u) (x : Int) : Executes id u (.fill m o x :: l) (fs ++ [(m.ticket, x)]) := by
  refine ⟨?_, ?_, fun e he => ?_⟩
  · rw [reverse_cons, filterMap_append, h.prints]
    unfold RefBook.prints
    rw [map_append, ← ho, ← hs]
    rfl
  · rw [reverse_cons, flatMap_append, h.fates]
    unfold RefBook.filledBy
    rw [filterMap_append]
    refine congrArg _ ?_
    have hc : m.ticket.left ≤ x ↔ m.totalQty ≤ m.filledQty + x := by
      show m.totalQty - m.filledQty ≤ x ↔ _
      omega
    by_cases hd : m.totalQty ≤ m.filledQty + x
    · have h1 := hc.mpr hd
      simp only [Report.fates, if_pos hd, flatMap_cons, flatMap_nil, append_nil, filterMap_cons,
        filterMap_nil, if_pos h1]
      rfl
    · have h1 := mt hc.mp hd
      simp only [Report.fates, if_neg hd, flatMap_cons, flatMap_nil, append_nil, filterMap_cons,
        filterMap_nil, if_neg h1]
  · rcases mem_cons.mp he with rfl | he
    · exact ⟨m, o, x, rfl⟩
    · exact h.fills e he

/-- The taker in slot `t` came from `b₀` to `b` against makers of side `s`: with `q` left to match, the
    trade that `b₀` began goes on from `b`. -/
structure Trading (V : Env) (s : Side) (t : Nat) (ok : Ticket → Bool) (b₀ : Book) (q : Int) (b : Book) : Prop where
  taking : Taking V b t q
  left : q = (b.core.body t).remainingQty
  stp : b.gates.stpPolicy = .none
  plain : b.NoIceberg V
  next : b.core.nextOrderId = b₀.core.nextOrderId
  took : ∃ x, b.core.body t = (b₀.core.body t).tookBy x
  other : b.ranked V s.other = b₀.ranked V s.other
  traded : ∃ l fs, b.log = l ++ b₀.log ∧ Executes (b₀.core.body t).id (b₀.core.body t).side l fs ∧
    trade ok (b₀.ranked V s) (b₀.core.body t).remainingQty =
      ((trade ok (b.ranked V s) q).1, (trade ok (b.ranked V s) q).2.1, fs ++ (trade ok (b.ranked V s) q).2.2)

theorem Trading.start (h : Taking V b t (b.core.body t).remainingQty) (hp : b.gates.stpPolicy = .none) (hn : b.NoIceberg V) :
    Trading V s t ok b (b.core.body t).remainingQty b := by
  refine ⟨h, rfl, hp, hn, rfl, ⟨0, ?_⟩, rfl, [], [], rfl, Executes.nil _ _, ?_⟩
  · unfold Order.tookBy
    rw [Int.add_zero]
  · rw [nil_append]

/-- A maker at the head of the best level is executed. -/
theorem Trading.exec (h : Trading V s t ok b₀ q b) (hm : Mid V s p b₁ b) (h₁ : Sweep V s b₁) (hp1 : b₁.core.best s = p)
    (hr : inRange V p) (hok : ∀ m : Ticket, m.price = p → ok m) (hq : b.core.queue V p = i :: B) (hpos : 0 < q)
    (ts : Nat) :
    Trading V s t ok b₀ (q - min q (b.core.body i).displayedQty)
      (b.executed V p t ts i (min q (b.core.body i).displayedQty)) := by
  have hw := h.taking.wf
  have ht := h.taking.flying
  have hi : i ∈ b.core.queue V p := by rw [hq]; exact mem_cons_self
  have hvis := hm.visible p i hi
  have hD := hvis.whole_shown (hw.resting hi) (h.plain p i hi)
  -- every order at the level is of side `s`
  have hside : ∀ m ∈ b.tickets V p, m.side = s := by
    intro m hmem
    obtain ⟨j, hj, rfl⟩ := mem_tickets.mp hmem
    by_contra hne
    have hrest := h₁.rests hp1 hr
    exact h₁.uncrossed.behind hrest le_rfl (hm.aside.rests ⟨j, hj, Side.eq_other_of_ne hne⟩)
  have hmin : ∀ r, b.core.Rests V s r → s.rank p ≤ s.rank r := by
    intro r hrr
    rcases h₁.best with ⟨-, h2⟩ | ⟨-, h2⟩
    · exact absurd (hm.aside.rests hrr) (h2 r)
    · rw [hp1] at h2
      exact h2 r (hm.aside.rests hrr)
  have htick : b.tickets V p = (b.core.body i).ticket :: B.map fun j => (b.core.body j).ticket := by
    unfold Book.tickets
    rw [hq]
    rfl
  have hex := executed_tickets hw hq ht (h.plain p i hi) ts (min q (b.core.body i).displayedQty)
  have hoff : ∀ r, r ≠ p → (b.executed V p t ts i (min q (b.core.body i).displayedQty)).tickets V r = b.tickets V r :=
    fun r hne => by rw [hex, update_of_ne hne]
  have hat : (b.executed V p t ts i (min q (b.core.body i).displayedQty)).tickets V p =
      hit (b.core.body i).ticket (min q (b.core.body i).displayedQty) (B.map fun j => (b.core.body j).ticket) := by
    rw [hex, update_self]
  have hside' : ∀ m ∈ (b.executed V p t ts i (min q (b.core.body i).displayedQty)).tickets V p, m.side = s := by
    intro m hmem
    rw [hat] at hmem
    unfold hit at hmem
    split at hmem
    · exact hside m (htick ▸ mem_cons_of_mem _ hmem)
    · rcases mem_cons.mp hmem with rfl | hmem
      · have h0 := hside (b.core.body i).ticket (htick ▸ mem_cons_self)
        exact h0
      · exact hside m (htick ▸ mem_cons_of_mem _ hmem)
  have htaker : (b.executed V p t ts i (min q (b.core.body i).displayedQty)).core.body t =
      (b.core.body t).tookBy (min q (b.core.body i).displayedQty) := executed_taker hw hi ht
  obtain ⟨x, hx⟩ := h.took
  obtain ⟨l, fs, hl, hfs, htr⟩ := h.traded
  obtain ⟨Y, -, hfront⟩ := ranked_front hw hr hmin
  refine ⟨?_, ?_, ?_, executed_noIceberg h.plain hw hi ht ts _,
    (executed_cached (hw.flying_ne_queued hi ht) ts _).2.trans h.next, ⟨x + min q (b.core.body i).displayedQty, ?_⟩, ?_, ?_⟩
  · refine ⟨?_, ?_, ?_⟩
    · exact (Act.exec p t ts i q ⟨hi, ht, hpos, h.taking.left, .inl h.stp⟩).wf hw
    · rw [show (b.executed V p t ts i (min q (b.core.body i).displayedQty)).inFlight = b.inFlight from
        Book.settleMaker_inFlight]
      exact ht
    · have h1 := h.left
      rw [htaker]
      unfold Order.remainingQty at h1
      show _ ≤ (b.core.body t).totalQty - ((b.core.body t).filledQty + _)
      omega
  · rw [htaker, Order.tookBy_remaining, ← h.left]
  · exact executed_prints.stpPolicy.trans h.stp
  · rw [htaker, hx]
    unfold Order.tookBy
    simp only [Int.add_assoc]
  · rw [← h.other]
    refine ranked_same hr hoff (fun m hmem => ?_) fun m hmem => ?_
    · rw [hside m hmem]
      exact (Side.other_ne s).symm
    · rw [hside' m hmem]
      exact (Side.other_ne s).symm
  · refine ⟨.fill (b.order i) (b.order t) (min q (b.core.body i).displayedQty) :: l,
      fs ++ [((b.core.body i).ticket, min q (b.core.body i).displayedQty)], ?_, ?_, ?_⟩
    · rw [Book.executed_log, hl]
      rfl
    · refine hfs.step ?_ ?_ _
      · have := congrArg Order.id hx
        exact this
      · have := congrArg Order.side hx
        exact this
    · rw [htr, hfront b (fun _ _ => rfl) hside, hfront _ hoff hside', htick, hat, cons_append]
      rw [trade_head hpos (hok _ (hw.ticket_price hi)), ← hD]
      have happ : ∀ (m : Ticket) (x : Int) (ms : List Ticket), hit m x ms ++ Y = hit m x (ms ++ Y) := by
        intro m x ms
        unfold hit
        split <;> rfl
      rw [happ]
      simp

/-- The FIFO loop over the best level. -/
theorem matchAtLevel_trading {q' : Int} (h : Trading V s t ok b₀ q b₁) (h1 : Sweep V s b₁) (hp1 : b₁.core.best s = p)
    (hr : inRange V p) (hok : ∀ m : Ticket, m.price = p → ok m)
    (hm : Book.matchAtLevel V p t ts n (b₁.core.levels p).head q b₁ = some (q', b')) :
    Trading V s t ok b₀ q' b' ∧ Mid V s p b₁ b' := by
  refine matchAtLevel_rule
    (I := fun m q b => Trading V s t ok b₀ q b ∧ Mid V s p b₁ b ∧ (m = (b.core.queue V p).head? ∨ q ≤ 0))
    (J := fun q b => Trading V s t ok b₀ q b ∧ Mid V s p b₁ b) ?_ ?_ ?_ n _ q b₁ q' b' ?_ hm
  · rintro i q b m q1 b2 ⟨htr, hmid, hat⟩ hpos hv
    obtain ⟨B, hB⟩ : ∃ B, b.core.queue V p = i :: B := by
      rcases hat with hat | hle
      · exact ⟨_, (cons_head?_tail hat.symm).symm⟩
      · omega
    have hi : i ∈ b.core.queue V p := by rw [hB]; exact mem_cons_self
    have hcase := b.visitMaker_cases V p ts q (htr.taking.wf.flying_ne_queued hi htr.taking.flying)
    rw [hv] at hcase
    cases hcase with
    | oldest hp _ =>
      rw [htr.stp] at hp
      cases hp
    | exec _ =>
      refine ⟨htr.exec hmid h1 hp1 hr hok hB hpos ts, hmid.exec htr.taking.wf hi htr.taking.flying ts (min_le_right _ _), ?_⟩
      -- the loop goes on at the next maker: it heads the queue now, or nothing is left to match
      have hD := (hmid.visible p i hi).whole_shown (htr.taking.wf.resting hi) (htr.plain p i hi)
      by_cases hle : (b.core.body i).ticket.left ≤ q
      · left
        have hnext : b.core.next i = B.head? := htr.taking.wf.next_eq (A := []) hB
        obtain ⟨o, l, hcase, hQ, -⟩ := htr.taking.wf.executed_cases hi htr.taking.flying ts
          (min q (b.core.body i).displayedQty)
        rw [hnext, hQ, update_self]
        rw [Order.ticket_left] at hle hD
        cases hcase with
        | refresh _ _ _ _ hice => exact absurd hice (htr.plain p i hi)
        | complete => rw [htr.taking.wf.erase_eq (A := []) hB]; rfl
        | partial_ hlt _ => omega
      · right
        omega
  · rintro i q b q1 b2 ⟨htr, -, hat⟩ hpos hv
    have hi : i ∈ b.core.queue V p := by
      rcases hat with hat | hle
      · exact mem_of_head? hat.symm
      · omega
    have hcase := b.visitMaker_cases V p ts q (htr.taking.wf.flying_ne_queued hi htr.taking.flying)
    rw [hv] at hcase
    cases hcase with
    | newest hp _ =>
      rw [htr.stp] at hp
      cases hp
    | both hp _ =>
      rw [htr.stp] at hp
      cases hp
  · rintro m q b ⟨htr, hmid, -⟩ -
    exact ⟨htr, hmid⟩
  · exact ⟨h, ⟨Aside.refl V p b₁, h1.visible, h1.summed, rfl, .inl hp1⟩, .inl (h.taking.wf.links.head_eq p)⟩

theorem Trading.best (h : Trading V s t ok b₀ q b) (x y : Int) :
    Trading V s t ok b₀ q { b with core := { b.core with bestBid := x, bestAsk := y } } := by
  exact ⟨h.taking.best x y, h.left, h.stp, h.plain, h.next, h.took, h.other, h.traded⟩

/-- The price loop: what is left is a trade that is over. -/
theorem priceLoop_trades (h0 : Trading V s t (Ticket.within s.other (b₀.core.body t).priceTicks) b₀ q b) (hs : Sweep V s b)
    (hside : (b₀.core.body t).side = s.other) (hm : Book.priceLoop V t ts n q b = some b') :
    ∃ q', Trading V s t (Ticket.within s.other (b₀.core.body t).priceTicks) b₀ q' b' ∧ Sweep V s b' ∧
      trade (Ticket.within s.other (b₀.core.body t).priceTicks) (b'.ranked V s) q' = (b'.ranked V s, q', []) := by
  have hsd : ∀ {q b}, Trading V s t (Ticket.within s.other (b₀.core.body t).priceTicks) b₀ q b →
      (b.order t).side = s.other ∧ (b.order t).priceTicks = (b₀.core.body t).priceTicks := by
    intro q b h
    obtain ⟨x, hx⟩ := h.took
    have h1 : (b.core.body t).side = (b₀.core.body t).side := by rw [hx]; rfl
    have h2 : (b.core.body t).priceTicks = (b₀.core.body t).priceTicks := by rw [hx]; rfl
    exact ⟨h1.trans hside, h2⟩
  refine priceLoop_rule
    (I := fun q b => Trading V s t (Ticket.within s.other (b₀.core.body t).priceTicks) b₀ q b ∧ Sweep V s b)
    (J := fun b => ∃ q', Trading V s t (Ticket.within s.other (b₀.core.body t).priceTicks) b₀ q' b ∧ Sweep V s b ∧
      trade (Ticket.within s.other (b₀.core.body t).priceTicks) (b.ranked V s) q' = (b.ranked V s, q', []))
    ?_ ?_ n q b b' ⟨h0, hs⟩ hm
  · rintro k q b p q1 b1 ⟨htr, hsw⟩ hpos hnext hl
    obtain ⟨hp, hne⟩ := nextLevel_some hnext (hsd htr).1
    have hr := hsw.inRange htr.taking.wf hp hne
    have hlim : s.rank p ≤ s.rank (b₀.core.body t).priceTicks := by
      rw [nextLevel_side (hsd htr).1] at hnext
      split at hnext
      · rename_i hc
        cases hnext
        rw [← (hsd htr).2]
        exact hc.2
      · cases hnext
    have hok : ∀ m : Ticket, m.price = p → Ticket.within s.other (b₀.core.body t).priceTicks m := by
      intro m hmp
      unfold Ticket.within
      rw [Side.other_other, hmp]
      exact decide_eq_true hlim
    obtain ⟨htr', hmid⟩ := matchAtLevel_trading htr hsw hp hr hok hl
    have hadv := hmid.advance hsw htr.taking.wf hp hr htr'.taking.wf
    obtain ⟨x, y, hb⟩ := advanceBest_eq (b1.order t).side
    refine ⟨?_, ?_⟩
    · rw [hb]
      exact htr'.best x y
    · rw [(hsd htr').1]
      exact hadv
  · rintro q b ⟨htr, hsw⟩ hend
    refine ⟨q, htr, hsw, trade_done ?_⟩
    rcases hend with hend | hend
    · exact .inl hend
    · right
      intro m hm
      have hrest := htr.taking.wf.rests_of_ranked hm
      have hn := nextLevel_none hend (hsd htr).1
      unfold Ticket.within
      rw [Side.other_other, decide_eq_false_iff_not, ← (hsd htr).2]
      rcases hsw.best with ⟨-, h2⟩ | ⟨⟨j, hj, -⟩, h2⟩
      · exact absurd hrest (h2 _)
      · have h3 := h2 _ hrest
        rcases hn with hn | hn
        · rw [hn] at hj
          exact absurd (htr.taking.wf.links.grid _ j hj) (Side.not_inRange_noBest V s)
        · omega

end

end HftLab.OrderBook
