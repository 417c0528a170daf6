/-
  HftLab.OrderBook.Progress — the price loop, and when it ends.

  The FIFO loop over one level always ends (`pass_ends`): a visit executes or removes something, or
  it leaves a maker behind that shows nothing. The price loop takes the same level again as long as
  orders rest there, so it ends if each iteration gets somewhere: the taker gives up quantity, the
  level loses an order, or the cached price moves on. A level can hold orders and offer none of that
  (`Book.barren`): all of them show nothing, as HIDDEN orders do. Then the iteration changes nothing,
  and without an iceberg to refresh, neither does the next one (`stalled_forever`).

  - `progresses_iff`: every iteration gets somewhere, and the loop ends, exactly if none starts at a
    barren level.
-/

import HftLab.OrderBook.SelfTrade
import HftLab.OrderBook.TopOfBook

namespace HftLab.OrderBook

open Lib Function List

section

variable {V : Env} {b b' : Book} {c d : Core} {p q : Int} {t ts i : Nat} {s : Side} {r : Request}

/-- From a cached price on, a refresh goes strictly further. -/
theorem refreshBest_rank (hp : inRange V p) (s : Side) : s.rank p < s.rank ((c.refreshBest V s (s.worse p)).best s) := by
  have hw := s.rank_worse p
  rcases refreshBest_spec V c s (s.worse p) (worse_start s hp) with ⟨h, -⟩ | ⟨-, h, -⟩
  · rw [h]
    exact Side.rank_lt_noBest hp s
  · omega

/-- A cancel at level `p` leaves the cached price of a side where it is or moves it on. -/
theorem cancel_rank (hw : Wf V b) (hi : i ∈ b.core.queue V p) (e : Bool) (s : Side) :
    s.rank (b.core.best s) ≤ s.rank ((b.cancelInternal V i e).core.best s) := by
  obtain ⟨ho, hs⟩ := cancel_best hw hi rfl e
  by_cases eu : s = (b.core.body i).side
  · subst eu
    rw [hs]
    split
    · rename_i hc
      rw [← hc.2]
      exact (refreshBest_rank (hw.links.grid p i hi) _).le
    · exact le_rfl
  · rw [Side.eq_other_of_ne eu, ho]

theorem advanceBest_core (s : Side) : (b.advanceBest V s.other p).core =
    if b.core.levels p |>.empty then b.core.refreshBest V s (i32 (s.worse (b.core.best s))) else b.core := by
  rw [advanceBest_side]
  split <;> rfl

/-- The price loop moves a cached price on exactly past an empty level. -/
theorem advance_rank (h : b.core.OnGrid V) (s : Side) : s.rank (b.core.best s) ≤ s.rank ((b.advanceBest V s.other p).core.best s) ∧
    ((b.core.levels p).empty = true → b.core.best s = s.noBest ∨
      s.rank (b.core.best s) < s.rank ((b.advanceBest V s.other p).core.best s)) := by
  rw [advanceBest_core]
  split
  · rename_i he
    rcases h s with h1 | h1
    · rw [h1, refreshBest_off (noBest_worse V s)]
      exact ⟨le_rfl, fun _ => .inl rfl⟩
    · rw [i32_worse s h1]
      have := refreshBest_rank (c := b.core) h1 s
      exact ⟨this.le, fun _ => .inr this⟩
  · rename_i he
    exact ⟨le_rfl, fun h => absurd h he⟩

theorem advance_grid (h : b.core.OnGrid V) (u : Side) : (b.advanceBest V u p).core.OnGrid V := by
  rw [← u.other_other, advanceBest_core]
  split
  · exact h.refreshBest _ _
  · exact h

end

/-! ## One pass over a level -/

namespace Book

/-- Self-trade prevention cancels the maker in slot `i`, or stops the taker there. -/
def handles (b : Book) (t i : Nat) : Bool :=
  (b.gates.stpPolicy = .cancelNewest || b.gates.stpPolicy = .cancelOldest || b.gates.stpPolicy = .cancelBoth) &&
    b.sameTradingEntity (b.order i).clientId (b.order t).clientId

/-- Nothing comes of a walk over `l`: no maker shows quantity or is handled by self-trade prevention, and
    a drained iceberg, which is refreshed and visited again at the end, is the last one. -/
def idles (b : Book) (t : Nat) : List Nat → Bool
  | [] => true
  | i :: l => (b.order i).displayedQty = 0 && !b.handles t i && ((b.order i).type ≠ .iceberg || l.isEmpty) && b.idles t l

/-- Orders rest at `p`, but the taker in slot `t` gets nothing out of an iteration there. -/
def barren (V : Env) (b : Book) (t : Nat) (p : Int) : Bool :=
  !(b.core.queue V p).isEmpty && b.idles t (b.core.queue V p)

end Book

/-- At most the status of some orders changed. -/
structure Unchanged (V : Env) (b b' : Book) : Prop where
  queue : b'.core.queue V = b.core.queue V
  best : b'.core.best = b.core.best
  body : ∀ j, ∃ st, b'.core.body j = { b.core.body j with status := st }
  stpPolicy : b'.gates.stpPolicy = b.gates.stpPolicy
  clientToFirm : b'.gates.clientToFirm = b.gates.clientToFirm

/-- What a visit of the maker in slot `i`, with `B` behind it, does to the level. -/
inductive PassCase (V : Env) (b : Book) (p : Int) (t i : Nat) (q : Int) (A B : List Nat) : Book.Visit → Prop
  | stops (b' : Book) : b.handles t i = true → (b'.core.queue V p).length ≤ (b.core.queue V p).length →
      PassCase V b p t i q A B (.stop 0 b')
  | moves (q' : Int) (b' : Book) (A' B' : List Nat) : B'.head? = B.head? → b'.core.queue V p = A' ++ B' → q' ≤ q →
      (b'.core.queue V p).length ≤ (b.core.queue V p).length →
      (q' < q ∨ (b'.core.queue V p).length < (b.core.queue V p).length) →
      (b.handles t i = true ∨ 0 < (b.order i).displayedQty) → PassCase V b p t i q A B (.next B.head? q' b')
  | skips (b' : Book) : b.handles t i = false → (b.order i).displayedQty = 0 → (b.order i).type ≠ .iceberg →
      Unchanged V b b' → PassCase V b p t i q A B (.next B.head? q b')
  | refreshes (b' : Book) : b.handles t i = false → (b.order i).displayedQty = 0 → (b.order i).type = .iceberg →
      b'.core.queue V = Function.update (b.core.queue V) p (A ++ B ++ [i]) →
      b'.core.best = b.core.best → 0 < (b'.order i).displayedQty →
      (∀ j, j ≠ i → (b'.order j).displayedQty = (b.order j).displayedQty) → PassCase V b p t i q A B (.next B.head? q b')

section

variable {V : Env} {b b' : Book} {p q q' : Int} {t ts i n : Nat} {A B l : List Nat} {m : Option Nat} {x y : Int × Book}
    {r : Request} {k : Nat}

theorem handles_of {P : SelfTradePrevention} (hp : b.gates.stpPolicy = P) (hP : P ≠ .none) (hP' : P ≠ .decrementAndCxl)
    (hs : b.sameTradingEntity (b.order i).clientId (b.order t).clientId) : b.handles t i := by
  unfold Book.handles
  rw [hs, hp]
  cases P <;> first | rfl | exact absurd rfl hP | exact absurd rfl hP'

theorem not_handles (h : b.gates.stpPolicy = .none ∨ b.gates.stpPolicy = .decrementAndCxl ∨
    b.sameTradingEntity (b.order i).clientId (b.order t).clientId = false) : b.handles t i = false := by
  unfold Book.handles
  rcases h with h | h | h
  · rw [h]
    rfl
  · rw [h]
    rfl
  · rw [h, Bool.and_false]

theorem Unchanged.trans {b'' : Book} (h : Unchanged V b b') (h' : Unchanged V b' b'') : Unchanged V b b'' := by
  refine ⟨h'.queue.trans h.queue, h'.best.trans h.best, fun j => ?_, h'.stpPolicy.trans h.stpPolicy,
    h'.clientToFirm.trans h.clientToFirm⟩
  obtain ⟨st, hst⟩ := h.body j
  obtain ⟨st', hst'⟩ := h'.body j
  exact ⟨st', by rw [hst', hst]⟩

/-- What a visit looks at is the same for every order. -/
theorem Unchanged.order (h : Unchanged V b b') (j : Nat) : (b'.order j).displayedQty = (b.order j).displayedQty ∧
    (b'.order j).type = (b.order j).type ∧ (b'.order j).clientId = (b.order j).clientId ∧
    (b'.order j).side = (b.order j).side ∧ (b'.order j).priceTicks = (b.order j).priceTicks := by
  obtain ⟨st, hst⟩ := h.body j
  show (b'.core.body j).displayedQty = (b.core.body j).displayedQty ∧ (b'.core.body j).type = (b.core.body j).type ∧
    (b'.core.body j).clientId = (b.core.body j).clientId ∧ (b'.core.body j).side = (b.core.body j).side ∧
    (b'.core.body j).priceTicks = (b.core.body j).priceTicks
  rw [hst]
  exact ⟨rfl, rfl, rfl, rfl, rfl⟩

theorem Unchanged.handles (h : Unchanged V b b') (j : Nat) : b'.handles t j = b.handles t j := by
  unfold Book.handles Book.sameTradingEntity
  rw [h.stpPolicy, h.clientToFirm, (h.order j).2.2.1, (h.order t).2.2.1]

theorem Unchanged.idles (h : Unchanged V b b') (l : List Nat) : b'.idles t l = b.idles t l := by
  induction l with
  | nil => rfl
  | cons i l ih =>
    unfold Book.idles
    rw [(h.order i).1, (h.order i).2.1, h.handles, ih]

/-- The queue after an execution: no longer than before, and the loop goes on at what followed the maker. -/
theorem Executed.split {o o' : Order} {l' : List Nat} (h : Executed o l i q o' l') (hl : l = A ++ i :: B)
    (he : l.erase i = A ++ B) : l'.length ≤ l.length ∧ ∃ A' B', l' = A' ++ B' ∧ B'.head? = B.head? := by
  have hlen : l.length = (A ++ B).length + 1 := by
    rw [hl, length_append, length_append, length_cons]
    omega
  cases h with
  | refresh =>
    rw [he, length_append, length_singleton]
    refine ⟨by omega, ?_⟩
    cases B with
    | nil => exact ⟨A ++ [i], [], by simp, rfl⟩
    | cons j B => exact ⟨A, j :: B ++ [i], by simp, rfl⟩
  | complete =>
    rw [he]
    exact ⟨by omega, A, B, rfl, rfl⟩
  | partial_ => exact ⟨le_rfl, A ++ [i], B, by simp [hl], rfl⟩

/-- The maker is executed, as far as it shows quantity. -/
theorem executed_pass (h : Taking V b t q) (hpos : 0 < q) (hq : b.core.queue V p = A ++ i :: B)
    (hs : b.handles t i = false) : PassCase V b p t i q A B (.next B.head? (q - min q (b.core.body i).displayedQty)
      (b.executed V p t ts i (min q (b.core.body i).displayedQty))) := by
  have hi : i ∈ b.core.queue V p := by rw [hq]; simp
  have hrest : (b.core.body i).Resting := h.wf.resting hi
  have herase := h.wf.erase_eq hq
  obtain ⟨o, l, hex, hQ, hB⟩ := h.wf.executed_cases hi h.flying ts (min q (b.core.body i).displayedQty)
  have hQp : (b.executed V p t ts i (min q (b.core.body i).displayedQty)).core.queue V p = l := by
    rw [hQ, update_self]
  obtain ⟨hle, A', B', hl, hhead⟩ := hex.split hq herase
  by_cases hD : 0 < (b.core.body i).displayedQty
  · exact .moves _ _ A' B' hhead (hQp.trans hl) (by omega) (by rw [hQp]; exact hle) (.inl (by omega)) (.inr hD)
  · -- nothing is executed
    have h0 : (b.core.body i).displayedQty = 0 := by
      have := hrest.shown
      omega
    have hmin : min q (b.core.body i).displayedQty = 0 := by omega
    rw [hmin] at hex hQ hB ⊢
    rw [Int.sub_zero]
    have hbest := executed_best (V := V) (b := b) (p := p) (h.wf.flying_ne_queued hi h.flying) ts 0
    have htook : (b.core.body t).tookBy 0 = b.core.body t := by
      unfold Order.tookBy
      rw [Int.add_zero]
    rw [htook, update_eq_self] at hB
    cases hex with
    | refresh shown _ hshow _ hty =>
      refine .refreshes _ hs h0 hty (by rw [hQ, herase]) hbest ?_ fun j hj => ?_
      · show 0 < (Core.body _ i).displayedQty
        rw [hB, update_self]
        exact hshow
      · show (Core.body _ j).displayedQty = (b.core.body j).displayedQty
        rw [hB, update_of_ne hj]
    | complete hdone =>
      have := hrest.left
      omega
    | partial_ _ hty =>
      have hprint : Prints b (b.executed V p t ts i 0) [.fill (b.order i) (b.order t) 0] := executed_prints
      refine .skips _ hs h0 (hty h0) ⟨?_, hbest, fun j => ?_, hprint.stpPolicy, hprint.clientToFirm⟩
      · rw [hQ, update_eq_self]
      · rw [hB]
        by_cases e : j = i
        · subst e
          rw [update_self]
          unfold Order.filledBy
          rw [Int.add_zero, Int.sub_zero]
          exact ⟨_, rfl⟩
        · rw [update_of_ne e]
          exact ⟨_, rfl⟩

theorem visit_pass (ts : Nat) (h : Taking V b t q) (hpos : 0 < q) (hq : b.core.queue V p = A ++ i :: B) :
    PassCase V b p t i q A B (b.visitMaker V p t ts i q) := by
  have hi : i ∈ b.core.queue V p := by rw [hq]; simp
  have hlen : (A ++ B).length < (b.core.queue V p).length := by
    rw [hq, length_append, length_append, length_cons]
    omega
  -- the queue after a cancel, whatever was reported before it
  have hcancel : ∀ l : List Report, (({ b with log := l ++ b.log } : Book).cancelInternal V i true).core.queue V p = A ++ B := by
    intro l
    have hwl : Wf V { b with log := l ++ b.log } := h.wf.of_core rfl rfl
    rw [hwl.cancelInternal_queue hi true, update_self]
    exact h.wf.erase_eq hq
  have hcase := b.visitMaker_cases V p ts q (h.wf.flying_ne_queued hi h.flying)
  revert hcase
  generalize b.visitMaker V p t ts i q = v
  intro hcase
  cases hcase with
  | newest hp hs => exact .stops _ (handles_of hp (by decide) (by decide) hs) le_rfl
  | both hp hs =>
    have hQ := congrArg List.length (hcancel [.stpAbort (b.order t) (b.order i), .stpCancel (b.order t) (b.order i) b.core])
    exact .stops _ (handles_of hp (by decide) (by decide) hs) (by exact (hQ.trans_lt hlen).le)
  | oldest hp hs =>
    have hQ := hcancel [.stpCancel (b.order t) (b.order i) b.core]
    have hlt := (congrArg List.length hQ).trans_lt hlen
    rw [h.wf.next_eq hq]
    exact .moves q _ A B rfl hQ le_rfl (by exact hlt.le) (.inr (by exact hlt))
      (.inl (handles_of hp (by decide) (by decide) hs))
  | exec hs =>
    rw [h.wf.next_eq hq]
    exact executed_pass h hpos hq (not_handles hs)

theorem matchAtLevel_next (hpos : 0 < q) (hv : b.visitMaker V p t ts i q = .next m q' b') :
    Book.matchAtLevel V p t ts (n + 1) (some i) q b = Book.matchAtLevel V p t ts n m q' b' := by
  rw [Book.matchAtLevel, if_neg (by omega), hv]

theorem matchAtLevel_stop (hpos : 0 < q) (hv : b.visitMaker V p t ts i q = .stop q' b') :
    Book.matchAtLevel V p t ts (n + 1) (some i) q b = some (q', b') := by
  rw [Book.matchAtLevel, if_neg (by omega), hv]

theorem matchAtLevel_done (h : m = none ∨ q ≤ 0) : Book.matchAtLevel V p t ts (n + 1) m q b = some (q, b) := by
  cases m with
  | none => rfl
  | some i => exact if_pos (h.resolve_left (by simp))

/-! ## The FIFO loop ends -/

/-- The makers of `l`, one that shows nothing counted twice: a refresh lowers it. -/
def Book.toVisit (b : Book) : List Nat → Nat
  | [] => 0
  | i :: l => (if (b.order i).displayedQty = 0 then 2 else 1) + b.toVisit l

theorem toVisit_congr (h : ∀ j ∈ l, (b'.order j).displayedQty = (b.order j).displayedQty) : b'.toVisit l = b.toVisit l := by
  induction l with
  | nil => rfl
  | cons i l ih =>
    unfold Book.toVisit
    rw [h i mem_cons_self, ih fun j hj => h j (mem_cons_of_mem _ hj)]

theorem toVisit_append (l : List Nat) : b.toVisit (l ++ [i]) = b.toVisit l + if (b.order i).displayedQty = 0 then 2 else 1 := by
  induction l with
  | nil => exact (Nat.zero_add _).symm
  | cons j l ih =>
    rw [cons_append, Book.toVisit, Book.toVisit, ih]
    omega

/-- With enough fuel the FIFO loop ends: a visit takes from the taker or from the queue, leaves a maker
    behind, or refreshes one that showed nothing. -/
theorem pass_ends (ts : Nat) {A B : List Nat} {q : Int} {b : Book} (h : Taking V b t q) (hq : b.core.queue V p = A ++ B) :
    ∃ n x, Book.matchAtLevel V p t ts n B.head? q b = some x := by
  match B, hq with
  | [], _ => exact ⟨1, _, matchAtLevel_done (.inl rfl)⟩
  | i :: B, hq =>
    by_cases hpos : 0 < q
    · have hi : i ∈ b.core.queue V p := by rw [hq]; simp
      have hnd : (A ++ i :: B).Nodup := hq ▸ (h.wf.links.level p).nodup
      have hiB : i ∉ B := (nodup_cons.mp (nodup_append.mp hnd).2.1).1
      have hcase := visit_pass ts h hpos hq
      generalize hv : b.visitMaker V p t ts i q = v at hcase
      cases hcase with
      | stops b' => exact ⟨1, _, matchAtLevel_stop hpos hv⟩
      | moves q' b' A' B' hhead hQ hle hlen hlt =>
        obtain ⟨n, x, hx⟩ := pass_ends ts ((visit_acts h hpos ⟨A, i :: B, hq, rfl⟩).2 _ _ _ hv).2.2.1 hQ
        rw [hhead] at hx
        exact ⟨n + 1, x, (matchAtLevel_next hpos hv).trans hx⟩
      | skips b' hh hD hty hun =>
        have hQ' : b'.core.queue V p = (A ++ [i]) ++ B := by
          rw [hun.queue, hq]
          simp
        have hw : b'.toVisit B < b.toVisit (i :: B) := by
          rw [Book.toVisit, toVisit_congr fun j _ => (hun.order j).1]
          split <;> omega
        have hQl : (b'.core.queue V p).length = (b.core.queue V p).length := by rw [hun.queue]
        obtain ⟨n, x, hx⟩ := pass_ends ts ((visit_acts h hpos ⟨A, i :: B, hq, rfl⟩).2 _ _ _ hv).2.2.1 hQ'
        exact ⟨n + 1, x, (matchAtLevel_next hpos hv).trans hx⟩
      | refreshes b' hh hD hty hQ hbest hshow hsame =>
        match B, hQ with
        | [], _ => exact ⟨2, _, (matchAtLevel_next hpos hv).trans (matchAtLevel_done (.inl rfl))⟩
        | j :: B, hQ =>
          have hQ' : b'.core.queue V p = A ++ (j :: B ++ [i]) := by
            rw [hQ, update_self]
            simp
          have hw : b'.toVisit (j :: B ++ [i]) < b.toVisit (i :: j :: B) := by
            have hsplit : b.toVisit (i :: j :: B) = 2 + b.toVisit (j :: B) := by
              rw [Book.toVisit, if_pos hD]
            rw [toVisit_append, toVisit_congr fun k hk => hsame k fun e => hiB (e ▸ hk), hsplit, if_neg (by omega)]
            omega
          have hQl : (b'.core.queue V p).length = (b.core.queue V p).length := by
            rw [hQ', hq]
            simp
          obtain ⟨n, x, hx⟩ := pass_ends ts ((visit_acts h hpos ⟨A, i :: j :: B, hq, rfl⟩).2 _ _ _ hv).2.2.1 hQ'
          exact ⟨n + 1, x, (matchAtLevel_next hpos hv).trans hx⟩
    · exact ⟨1, _, matchAtLevel_done (.inr (by omega))⟩
termination_by (q.toNat + (b.core.queue V p).length, b.toVisit B)
decreasing_by
  · refine Prod.Lex.left _ _ ?_
    omega
  · rw [hQl]
    exact Prod.Lex.right _ hw
  · rw [hQl]
    exact Prod.Lex.right _ hw

/-! ## What a pass gets done -/

theorem matchAtLevel_mono (hle : n ≤ k) (h : Book.matchAtLevel V p t ts n m q b = some x) :
    Book.matchAtLevel V p t ts k m q b = some x := by
  induction n generalizing k m q b with
  | zero => cases h
  | succ n ih =>
    obtain ⟨k, rfl⟩ : ∃ j, k = j + 1 := ⟨k - 1, by omega⟩
    unfold Book.matchAtLevel at h ⊢
    cases m with
    | none => exact h
    | some i =>
      dsimp only at h ⊢
      split at h
      · rename_i hq
        rw [if_pos hq]
        exact h
      · rename_i hq
        rw [if_neg hq]
        split at h
        · exact h
        · exact ih (by omega) h

/-- A pass takes nothing back. -/
theorem pass_le (h : Taking V b t q) (hat : At V b.core p m) (hm : Book.matchAtLevel V p t ts n m q b = some (q', b')) :
    q' ≤ q ∧ (b'.core.queue V p).length ≤ (b.core.queue V p).length := by
  refine matchAtLevel_rule
    (I := fun m q1 b1 => Taking V b1 t q1 ∧ At V b1.core p m ∧ q1 ≤ q ∧
      (b1.core.queue V p).length ≤ (b.core.queue V p).length)
    (J := fun q1 b1 => q1 ≤ q ∧ (b1.core.queue V p).length ≤ (b.core.queue V p).length) ?_ ?_ ?_ n m q b q' b'
    ⟨h, hat, le_rfl, le_rfl⟩ hm
  · rintro i q1 b1 m q2 b2 ⟨ht, hat, hq, hl⟩ hpos hv
    obtain ⟨-, -, ht', hat'⟩ := (visit_acts ht hpos hat).2 m q2 b2 hv
    obtain ⟨A, C, hQ, hC⟩ := hat
    obtain ⟨B, rfl⟩ := List.head?_eq_some_iff.mp hC.symm
    have hcase := visit_pass ts ht hpos hQ
    rw [hv] at hcase
    refine ⟨ht', hat', ?_⟩
    cases hcase with
    | moves _ _ _ _ _ _ hle hlen _ _ => exact ⟨hle.trans hq, hlen.trans hl⟩
    | skips _ _ _ _ hun => exact ⟨hq, by rw [hun.queue]; exact hl⟩
    | refreshes _ _ _ _ hQ' _ _ _ =>
      refine ⟨hq, le_trans (le_of_eq ?_) hl⟩
      rw [hQ', update_self, hQ]
      simp
  · rintro i q1 b1 q2 b2 ⟨ht, ⟨A, C, hQ, hC⟩, hq, hl⟩ hpos hv
    obtain ⟨B, rfl⟩ := List.head?_eq_some_iff.mp hC.symm
    have hcase := visit_pass ts ht hpos hQ
    rw [hv] at hcase
    cases hcase with
    | stops _ _ hlen => exact ⟨by omega, hlen.trans hl⟩
  · rintro m q1 b1 ⟨-, -, hq, hl⟩ -
    exact ⟨hq, hl⟩

theorem idles_append_false (h : (b.order i).displayedQty ≠ 0) : b.idles t (l ++ [i]) = false := by
  induction l with
  | nil =>
    show b.idles t [i] = false
    unfold Book.idles
    rw [decide_eq_false h]
    rfl
  | cons j l ih =>
    rw [cons_append]
    unfold Book.idles
    rw [ih, Bool.and_false]

/-- A walk that does not idle takes from the taker or from the queue. -/
theorem pass_moves (h : Taking V b t q) (hq : b.core.queue V p = A ++ B) (hpos : 0 < q) (hl : b.idles t B = false)
    (hm : Book.matchAtLevel V p t ts n B.head? q b = some (q', b')) :
    q' < q ∨ (b'.core.queue V p).length < (b.core.queue V p).length := by
  induction n generalizing A B q b with
  | zero => cases hm
  | succ n ih =>
    cases B with
    | nil => cases hl
    | cons i B =>
      have hcase := visit_pass ts h hpos hq
      generalize hv : b.visitMaker V p t ts i q = v at hcase
      cases hcase with
      | stops b1 =>
        rw [List.head?_cons, matchAtLevel_stop hpos hv] at hm
        cases hm
        exact .inl hpos
      | moves q1 b1 A' B' hhead hQ hle hlen hlt =>
        rw [List.head?_cons, matchAtLevel_next hpos hv] at hm
        obtain ⟨-, -, ht', hat'⟩ := (visit_acts h hpos ⟨A, i :: B, hq, rfl⟩).2 _ _ _ hv
        have := pass_le ht' hat' hm
        omega
      | skips b1 hh hD hty hun =>
        rw [List.head?_cons, matchAtLevel_next hpos hv] at hm
        have hQ : b1.core.queue V p = (A ++ [i]) ++ B := by
          rw [hun.queue, hq]
          simp
        have hl' : b1.idles t B = false := by
          rw [hun.idles]
          unfold Book.idles at hl
          simpa [hD, hh, hty] using hl
        rw [← hun.queue]
        exact ih ((visit_acts h hpos ⟨A, i :: B, hq, rfl⟩).2 _ _ _ hv).2.2.1 hQ hpos hl' hm
      | refreshes b1 hh hD hty hQ hbest hshow hsame =>
        rw [List.head?_cons, matchAtLevel_next hpos hv] at hm
        cases B with
        | nil =>
          unfold Book.idles at hl
          simp [hD, hh, Book.idles] at hl
        | cons j B =>
          have hQ' : b1.core.queue V p = A ++ (j :: B ++ [i]) := by
            rw [hQ, update_self]
            simp
          have hlen : (b1.core.queue V p).length = (b.core.queue V p).length := by
            rw [hQ', hq]
            simp
          rw [← hlen]
          exact ih ((visit_acts h hpos ⟨A, i :: j :: B, hq, rfl⟩).2 _ _ _ hv).2.2.1 hQ' hpos (idles_append_false (by omega)) hm

/-- A walk that idles changes nothing but an iceberg at the end. -/
theorem pass_idle (h : Taking V b t q) (hq : b.core.queue V p = A ++ B) (hpos : 0 < q) (hl : b.idles t B)
    (hm : Book.matchAtLevel V p t ts n B.head? q b = some (q', b')) :
    q' = q ∧ b'.core.queue V = b.core.queue V ∧ b'.core.best = b.core.best ∧
      ((∀ i ∈ B, (b.order i).type ≠ .iceberg) → Unchanged V b b') := by
  induction n generalizing A B b with
  | zero => cases hm
  | succ n ih =>
    cases B with
    | nil =>
      rw [List.head?_nil, matchAtLevel_done (.inl rfl)] at hm
      cases hm
      exact ⟨rfl, rfl, rfl, fun _ => ⟨rfl, rfl, fun j => ⟨_, rfl⟩, rfl, rfl⟩⟩
    | cons i B =>
      unfold Book.idles at hl
      simp only [Bool.and_eq_true, decide_eq_true_eq, Bool.not_eq_true'] at hl
      obtain ⟨⟨⟨hD, hh⟩, hty⟩, hl⟩ := hl
      have hcase := visit_pass ts h hpos hq
      generalize hv : b.visitMaker V p t ts i q = v at hcase
      cases hcase with
      | stops b1 hh' =>
        rw [hh] at hh'
        cases hh'
      | moves q1 b1 A' B' hhead hQ hle hlen hlt hwhy =>
        rcases hwhy with hh' | hD'
        · rw [hh] at hh'
          cases hh'
        · omega
      | skips b1 _ _ hty hun =>
        rw [List.head?_cons, matchAtLevel_next hpos hv] at hm
        have hQ : b1.core.queue V p = (A ++ [i]) ++ B := by
          rw [hun.queue, hq]
          simp
        obtain ⟨h1, h2, h3, h4⟩ := ih ((visit_acts h hpos ⟨A, i :: B, hq, rfl⟩).2 _ _ _ hv).2.2.1 hQ (by rw [hun.idles]; exact hl) hm
        refine ⟨h1, h2.trans hun.queue, h3.trans hun.best, fun hn => hun.trans (h4 fun j hj => ?_)⟩
        rw [(hun.order j).2.1]
        exact hn j (mem_cons_of_mem _ hj)
      | refreshes b1 _ _ hice hQ hbest hshow hsame =>
        have hnil : B = [] := by simpa [hice] using hty
        subst hnil
        rw [List.head?_cons, matchAtLevel_next hpos hv] at hm
        cases n with
        | zero => cases hm
        | succ n =>
          rw [List.head?_nil, matchAtLevel_done (.inl rfl)] at hm
          cases hm
          refine ⟨rfl, ?_, hbest, fun hn => absurd hice (hn i mem_cons_self)⟩
          have hqp : A ++ [] ++ [i] = b.core.queue V p := by
            rw [hq, append_nil]
          rw [hQ, hqp, update_eq_self]

/-- A pass leaves the cached prices on the grid, none of them better than before, and the taker's side alone. -/
theorem pass_grid (h : Taking V b t q) (hat : At V b.core p m) (hg : b.core.OnGrid V)
    (hm : Book.matchAtLevel V p t ts n m q b = some (q', b')) : b'.core.OnGrid V ∧
      (∀ s : Side, s.rank (b.core.best s) ≤ s.rank (b'.core.best s)) ∧ (b'.order t).side = (b.order t).side := by
  -- one cancel, whatever was reported before it
  have hcancel : ∀ (b1 : Book) (i : Nat) (l : List Report), Wf V b1 → i ∈ b1.core.queue V p →
      b1.core.OnGrid V ∧ (∀ s : Side, s.rank (b.core.best s) ≤ s.rank (b1.core.best s)) ∧ (b1.order t).side = (b.order t).side →
      (({ b1 with log := l ++ b1.log } : Book).cancelInternal V i true).core.OnGrid V ∧
      (∀ s : Side, s.rank (b.core.best s) ≤
        s.rank ((({ b1 with log := l ++ b1.log } : Book).cancelInternal V i true).core.best s)) ∧
      ((({ b1 with log := l ++ b1.log } : Book).cancelInternal V i true).order t).side = (b.order t).side := by
    rintro b1 i l hw hi ⟨hg, hr, hs⟩
    have hwl : Wf V { b1 with log := l ++ b1.log } := hw.of_core rfl rfl
    exact ⟨cancelInternal_onGrid (b := { b1 with log := l ++ b1.log }) hg i true, fun s => (hr s).trans (cancel_rank hwl hi true s),
      ((cancel_aside hwl hi true).side t).trans hs⟩
  refine (matchAtLevel_passes
    (I := fun _ b1 => b1.core.OnGrid V ∧ (∀ s : Side, s.rank (b.core.best s) ≤ s.rank (b1.core.best s)) ∧
      (b1.order t).side = (b.order t).side)
    (fun {i q1 b1 v} ht hI _ hi _ hcase => ?_) h hat ⟨hg, fun _ => le_rfl, rfl⟩ hm).2
  cases hcase with
  | newest _ _ => exact hI
  | oldest _ _ => exact hcancel b1 i [.stpCancel (b1.order t) (b1.order i) b1.core] ht.wf hi hI
  | both _ _ =>
    exact hcancel b1 i [.stpAbort (b1.order t) (b1.order i), .stpCancel (b1.order t) (b1.order i) b1.core] ht.wf hi hI
  | exec _ =>
    obtain ⟨hg, hr, hs⟩ := hI
    have hbest := executed_best (V := V) (b := b1) (p := p) (ht.wf.flying_ne_queued hi ht.flying) ts
      (min q1 (b1.core.body i).displayedQty)
    refine ⟨hg.of_best hbest, fun s => ?_, ((executed_aside ht.wf hi ht.flying ts _).side t).trans hs⟩
    show _ ≤ s.rank ((b1.executed V p t ts i _).core.best s)
    rw [hbest]
    exact hr s

/-! ## The price loop -/

/-- One iteration of the price loop, from the quantity left and the book before to those after it. -/
inductive Iterates (V : Env) (t ts : Nat) : Int × Book → Int × Book → Prop
  | mk {n : Nat} {q q' p : Int} {b b' : Book} : 0 < q → b.nextLevel t = some p →
      Book.matchAtLevel V p t ts n (b.core.levels p).head q b = some (q', b') →
      Iterates V t ts (q, b) (q', b'.advanceBest V (b'.order t).side p)

/-- An iteration gets somewhere: it consumes taker quantity, removes an order from the level it takes, or
    moves the best opposite price on. -/
def Advances (V : Env) (t : Nat) (x y : Int × Book) : Prop :=
  y.1 < x.1 ∨
  (∃ p, x.2.nextLevel t = some p ∧ (y.2.core.queue V p).length < (x.2.core.queue V p).length) ∨
  (x.2.order t).side.other.rank (x.2.core.best (x.2.order t).side.other) <
    (x.2.order t).side.other.rank (y.2.core.best (x.2.order t).side.other)

/-- The price loop from `x` ends, and each of its iterations gets somewhere. -/
structure Progresses (V : Env) (t ts : Nat) (x : Int × Book) : Prop where
  ends : ∃ n b', Book.priceLoop V t ts n x.1 x.2 = some b'
  advances : ∀ y z, Relation.ReflTransGen (Iterates V t ts) x y → Iterates V t ts y z → Advances V t y z

/-- No iteration of the price loop from `x` starts at a barren level. -/
def NeverBarren (V : Env) (t ts : Nat) (x : Int × Book) : Prop :=
  ∀ y, Relation.ReflTransGen (Iterates V t ts) x y → 0 < y.1 → ∀ p, y.2.nextLevel t = some p → y.2.barren V t p = false

/-- What holds at the start of each iteration. -/
structure Looping (V : Env) (t : Nat) (x : Int × Book) : Prop where
  taking : Taking V x.2 t x.1
  grid : x.2.core.OnGrid V

theorem nextLevel_grid (hg : b.core.OnGrid V) (hn : b.nextLevel t = some p) :
    b.core.best (b.order t).side.other = p ∧ inRange V p := by
  obtain ⟨hb, hne⟩ := nextLevel_some hn (Side.other_other _).symm
  rcases hg (b.order t).side.other with h | h
  · exact absurd (hb.symm.trans h) hne
  · exact ⟨hb, hb ▸ h⟩

/-- An iteration at `p`, taken apart. -/
theorem iterate_cases (h : Looping V t x) (hi : Iterates V t ts x y) : ∃ n p b', 0 < x.1 ∧ x.2.nextLevel t = some p ∧
    Book.matchAtLevel V p t ts n (x.2.core.queue V p).head? x.1 x.2 = some (y.1, b') ∧ Taking V b' t y.1 ∧ b'.core.OnGrid V ∧
    (∀ s : Side, s.rank (x.2.core.best s) ≤ s.rank (b'.core.best s)) ∧ (b'.order t).side = (x.2.order t).side ∧
    y.2 = b'.advanceBest V (x.2.order t).side p := by
  cases hi with
  | @mk n q q' p b b' hpos hn hm =>
    have hat := h.taking.wf.at_head p
    obtain ⟨-, -, ht⟩ := matchAtLevel_acts h.taking hat hm
    obtain ⟨hg, hr, hs⟩ := pass_grid h.taking hat h.grid hm
    refine ⟨n, p, b', hpos, hn, ?_, ht, hg, hr, hs, by rw [hs]⟩
    rw [← h.taking.wf.links.head_eq p]
    exact hm

theorem Looping.next (h : Looping V t x) (hi : Iterates V t ts x y) : Looping V t y := by
  obtain ⟨n, p, b', -, -, -, ht, hg, -, -, hy⟩ := iterate_cases h hi
  obtain ⟨u, v, hb⟩ := advanceBest_eq (x.2.order t).side
  refine ⟨?_, ?_⟩
  · rw [hy, hb]
    exact ht.best u v
  · rw [hy]
    exact advance_grid hg _

theorem Looping.later (h : Looping V t x) (hr : Relation.ReflTransGen (Iterates V t ts) x y) : Looping V t y := by
  induction hr with
  | refl => exact h
  | tail _ hi ih => exact ih.next hi

theorem advanceBest_queue (u : Side) : (b.advanceBest V u p).core.queue V = b.core.queue V := by
  obtain ⟨v, w, hb⟩ := advanceBest_eq u
  rw [hb]
  rfl

/-- An iteration takes nothing back. -/
theorem iterate_le (h : Looping V t x) (hi : Iterates V t ts x y) : y.1 ≤ x.1 ∧
    (∀ p, x.2.nextLevel t = some p → (y.2.core.queue V p).length ≤ (x.2.core.queue V p).length) ∧
    (y.2.order t).side = (x.2.order t).side ∧
    (x.2.order t).side.other.rank (x.2.core.best (x.2.order t).side.other) ≤
      (x.2.order t).side.other.rank (y.2.core.best (x.2.order t).side.other) := by
  obtain ⟨n, p, b', -, hn, hm, ht, hg, hr, hs, hy⟩ := iterate_cases h hi
  obtain ⟨hq, hl⟩ := pass_le h.taking ⟨[], _, rfl, rfl⟩ hm
  obtain ⟨u, v, hb⟩ := advanceBest_eq (x.2.order t).side
  refine ⟨hq, fun r hr' => ?_, ?_, ?_⟩
  · rw [hn] at hr'
    cases hr'
    rw [hy, advanceBest_queue]
    exact hl
  · rw [hy, hb]
    exact hs
  · refine (hr _).trans ?_
    have := (advance_rank (p := p) hg (x.2.order t).side.other).1
    rwa [Side.other_other, ← hy] at this

/-- An iteration that does not start at a barren level gets somewhere. -/
theorem iterate_advances (h : Looping V t x) (hi : Iterates V t ts x y)
    (hb : ∀ p, x.2.nextLevel t = some p → x.2.barren V t p = false) : Advances V t x y := by
  obtain ⟨n, p, b', hpos, hn, hm, ht, hg, hr, hs, hy⟩ := iterate_cases h hi
  by_cases hnil : x.2.core.queue V p = []
  · -- an empty level: nothing is matched and the cache moves on
    right
    right
    rw [hnil, List.head?_nil] at hm
    cases n with
    | zero => cases hm
    | succ n =>
      rw [matchAtLevel_done (.inl rfl)] at hm
      obtain ⟨-, rfl⟩ := Prod.mk.injEq .. ▸ Option.some.inj hm
      obtain ⟨hbest, hrange⟩ := nextLevel_grid h.grid hn
      have hadv := (advance_rank hg (x.2.order t).side.other).2 ((ht.wf.links.empty_iff p).mpr hnil)
      rw [Side.other_other, ← hy] at hadv
      refine hadv.resolve_left fun hno => ?_
      rw [hbest] at hno
      exact Side.not_inRange_noBest V _ (hno ▸ hrange)
  · have hidle : x.2.idles t (x.2.core.queue V p) = false := by
      have := hb p hn
      unfold Book.barren at this
      simpa [hnil] using this
    rcases pass_moves (A := []) h.taking rfl hpos hidle hm with hlt | hlt
    · exact .inl hlt
    · refine .inr (.inl ⟨p, hn, ?_⟩)
      rw [hy, advanceBest_queue]
      exact hlt

/-- An iteration at a barren level gets nowhere; without an iceberg there, it changes nothing. -/
theorem iterate_barren (h : Looping V t x) (hi : Iterates V t ts x y) (hn : x.2.nextLevel t = some p)
    (hb : x.2.barren V t p) : y.1 = x.1 ∧ y.2.core.queue V = x.2.core.queue V ∧ y.2.core.best = x.2.core.best ∧
      ((∀ i ∈ x.2.core.queue V p, (x.2.order i).type ≠ .iceberg) → Unchanged V x.2 y.2) := by
  obtain ⟨n, r, b', hpos, hr, hm, ht, -, -, -, hy⟩ := iterate_cases h hi
  rw [hn] at hr
  cases hr
  unfold Book.barren at hb
  simp only [Bool.and_eq_true, Bool.not_eq_true', isEmpty_eq_false_iff] at hb
  obtain ⟨h1, h2, h3, h4⟩ := pass_idle (A := []) h.taking rfl hpos hb.2 hm
  -- orders are left at the level, so the cache stays
  have hstay : y.2 = b' := by
    have hne : ¬ (b'.core.levels p).empty := fun he => hb.1 (by rw [← h2]; exact (ht.wf.links.empty_iff p).mp he)
    have hadv := advanceBest_side V b' (x.2.order t).side.other p
    rw [Side.other_other, if_neg hne] at hadv
    rw [hy, hadv]
  rw [hstay]
  exact ⟨h1, h2, h3, h4⟩

theorem barren_stays (h : Looping V t x) (hi : Iterates V t ts x y) (hn : x.2.nextLevel t = some p)
    (hb : x.2.barren V t p) : ¬ Advances V t x y := by
  obtain ⟨h1, h2, h3, -⟩ := iterate_barren h hi hn hb
  rintro (hlt | ⟨r, hr, hlt⟩ | hlt)
  · omega
  · rw [h2] at hlt
    omega
  · rw [h3] at hlt
    omega

/-- While something is left and a level is within the limit, there is a next iteration. -/
theorem iterate_exists (ts : Nat) (h : Looping V t x) (hpos : 0 < x.1) (hn : x.2.nextLevel t = some p) :
    ∃ y, Iterates V t ts x y := by
  obtain ⟨n, ⟨q', b'⟩, hm⟩ := pass_ends ts (A := []) h.taking rfl
  refine ⟨(q', b'.advanceBest V (b'.order t).side p), .mk (n := n) hpos hn ?_⟩
  rw [h.taking.wf.links.head_eq p]
  exact hm

theorem priceLoop_mono (hle : n ≤ k) (h : Book.priceLoop V t ts n q b = some b') : Book.priceLoop V t ts k q b = some b' := by
  induction n generalizing k q b with
  | zero => cases h
  | succ n ih =>
    obtain ⟨k, rfl⟩ : ∃ j, k = j + 1 := ⟨k - 1, by omega⟩
    unfold Book.priceLoop at h ⊢
    split at h
    · rename_i hq
      rw [if_pos hq]
      exact h
    · rename_i hq
      rw [if_neg hq]
      split at h
      · exact h
      · split at h
        · cases h
        · rename_i q' b1 hm
          rw [matchAtLevel_mono (by omega : n ≤ k) hm]
          exact ih (by omega) h

/-- After one iteration the loop goes on. -/
theorem priceLoop_iterates (hi : Iterates V t ts x y) (h : Book.priceLoop V t ts n y.1 y.2 = some b') :
    ∃ k, Book.priceLoop V t ts k x.1 x.2 = some b' := by
  cases hi with
  | @mk m q q' p b b1 hpos hn hm =>
    refine ⟨max m n + 1, ?_⟩
    unfold Book.priceLoop
    rw [if_neg (by exact not_le.mpr hpos)]
    rw [hn]
    dsimp only
    rw [matchAtLevel_mono (le_max_left m n) hm]
    exact priceLoop_mono (le_max_right m n) h

theorem priceLoop_done (h : q ≤ 0 ∨ b.nextLevel t = none) : Book.priceLoop V t ts 1 q b = some b := by
  unfold Book.priceLoop
  rcases h with h | h
  · rw [if_pos h]
  · split
    · rfl
    · rw [h]

/-- The loop ends if none of its iterations starts at a barren level: each of them moves the cached price
    on, or takes from the taker or from the queue at that price. -/
theorem loop_ends {x : Int × Book} (h : Looping V t x) (hb : NeverBarren V t ts x) :
    ∃ n b', Book.priceLoop V t ts n x.1 x.2 = some b' := by
  by_cases hpos : 0 < x.1
  · cases hn : x.2.nextLevel t with
    | none => exact ⟨1, x.2, priceLoop_done (.inr hn)⟩
    | some p =>
      obtain ⟨y, hi⟩ := iterate_exists ts h hpos hn
      have hadv := iterate_advances h hi (hb x .refl hpos)
      obtain ⟨hq, hl, hs, hr⟩ := iterate_le h hi
      have hbest := (nextLevel_grid h.grid hn).1
      have hmax := (h.next hi).grid.rank_le (x.2.order t).side.other
      obtain ⟨n, b', hend⟩ := loop_ends (h.next hi) fun z hz => hb z (.head hi hz)
      obtain ⟨k, hk⟩ := priceLoop_iterates hi hend
      exact ⟨k, b', hk⟩
  · exact ⟨1, x.2, priceLoop_done (.inl (by omega))⟩
termination_by (((x.2.order t).side.other.rank (x.2.order t).side.other.noBest -
    (x.2.order t).side.other.rank (x.2.core.best (x.2.order t).side.other)).toNat,
  x.1.toNat + (x.2.core.queue V (x.2.core.best (x.2.order t).side.other)).length)
decreasing_by
  rw [hs]
  rcases hr.lt_or_eq with hlt | heq
  · refine Prod.Lex.left _ _ ?_
    omega
  · have hsame := Side.rank_inj heq
    rw [← hsame]
    refine Prod.Lex.right _ ?_
    rw [hbest]
    have hle := hl p hn
    rcases hadv with hlt | ⟨r, hr', hlt⟩ | hlt
    · omega
    · rw [hn] at hr'
      cases hr'
      omega
    · omega

/-- Every iteration gets somewhere and the loop ends, exactly if none starts at a barren level. -/
theorem progresses_iff (h : Looping V t x) : Progresses V t ts x ↔ NeverBarren V t ts x := by
  constructor
  · intro hp y hy hpos p hn
    by_contra hb
    have hl := h.later hy
    obtain ⟨z, hi⟩ := iterate_exists ts hl hpos hn
    exact barren_stays hl hi hn (by simpa using hb) (hp.advances y z hy hi)
  · intro hb
    refine ⟨loop_ends h hb, fun y z hy hi => ?_⟩
    have hl := h.later hy
    obtain ⟨-, -, -, hpos, -⟩ := iterate_cases hl hi
    exact iterate_advances hl hi (hb y hy hpos)

theorem Unchanged.nextLevel (h : Unchanged V b b') : b'.nextLevel t = b.nextLevel t := by
  obtain ⟨-, -, -, hs, hp⟩ := h.order t
  have h1 := nextLevel_side (s := (b.order t).side.other) (Side.other_other _).symm
  have h2 := nextLevel_side (hs.trans (Side.other_other _).symm)
  rw [h1, h2, h.best, hp]

/-- A barren level without an iceberg is barren for good: the price loop does not end. -/
theorem stalled_forever (ts : Nat) (h : Looping V t x) (hpos : 0 < x.1) (hn : x.2.nextLevel t = some p) (hb : x.2.barren V t p)
    (hice : ∀ i ∈ x.2.core.queue V p, (x.2.order i).type ≠ .iceberg) (n : Nat) :
    Book.priceLoop V t ts n x.1 x.2 = none := by
  induction n generalizing x with
  | zero => rfl
  | succ n ih =>
    unfold Book.priceLoop
    rw [if_neg (by omega), hn]
    dsimp only
    cases hm : Book.matchAtLevel V p t ts n (x.2.core.levels p).head x.1 x.2 with
    | none => rfl
    | some y =>
      obtain ⟨q', b'⟩ := y
      have hi : Iterates V t ts x (q', b'.advanceBest V (b'.order t).side p) := .mk hpos hn hm
      obtain ⟨h1, h2, -, h4⟩ := iterate_barren h hi hn hb
      have hun := h4 hice
      refine ih (h.next hi) (by rw [h1]; exact hpos) (hun.nextLevel.trans hn) ?_ fun j hj => ?_
      · unfold Book.barren
        rw [h2, hun.idles]
        exact hb
      · rw [(hun.order j).2.1]
        rw [h2] at hj
        exact hice j hj

/-! ## Books whose orders show themselves -/

theorem visible_not_barren (h : b.AllVisible V) : b.barren V t p = false := by
  unfold Book.barren
  cases hq : b.core.queue V p with
  | nil => rfl
  | cons i l =>
    have hi : 0 < (b.order i).displayedQty := (h p i (by rw [hq]; simp)).shown
    unfold Book.idles
    rw [decide_eq_false (by omega)]
    simp

theorem Looping.visible (h : Looping V t x) (hv : x.2.AllVisible V) (hi : Iterates V t ts x y) : y.2.AllVisible V := by
  cases hi with
  | @mk n q q' p b b' hpos hn hm =>
    have hcancel : ∀ (b1 : Book) (i : Nat) (l : List Report), Wf V b1 → i ∈ b1.core.queue V p → b1.AllVisible V →
        (({ b1 with log := l ++ b1.log } : Book).cancelInternal V i true).AllVisible V := by
      intro b1 i l hw hi hv
      exact cancel_visible (b := { b1 with log := l ++ b1.log }) hv (hw.of_core rfl rfl) hi true
    have hpass : b'.AllVisible V := by
      refine (matchAtLevel_passes (I := fun _ b1 => b1.AllVisible V) (fun {i q1 b1 v} ht hv1 _ hi _ hcase => ?_)
        h.taking (h.taking.wf.at_head p) hv hm).2
      cases hcase with
      | newest _ _ => exact hv1
      | oldest _ _ => exact hcancel b1 i [.stpCancel (b1.order t) (b1.order i) b1.core] ht.wf hi hv1
      | both _ _ =>
        exact hcancel b1 i [.stpAbort (b1.order t) (b1.order i), .stpCancel (b1.order t) (b1.order i) b1.core] ht.wf hi hv1
      | exec _ => exact executed_visible hv1 ht.wf hi ht.flying ts (min_le_right _ _)
    obtain ⟨u, v, hb⟩ := advanceBest_eq (b'.order t).side
    rw [hb]
    exact hpass

/-- Where every order shows itself, no level is ever barren. -/
theorem visible_neverBarren (h : Looping V t x) (hv : x.2.AllVisible V) : NeverBarren V t ts x := by
  have hlater : ∀ y, Relation.ReflTransGen (Iterates V t ts) x y → Looping V t y ∧ y.2.AllVisible V := by
    intro y hy
    induction hy with
    | refl => exact ⟨h, hv⟩
    | tail _ hi ih => exact ⟨ih.1.next hi, ih.1.visible ih.2 hi⟩
  intro y hy _ p _
  exact visible_not_barren (hlater y hy).2

/-! ## Runs -/

/-- Where the price loop of `submit` starts: the slot of the accepted order, the time of the match, the
    quantity to match and the book. `none` if the order is refused or not matched on entry. -/
def Book.startMatch (V : Env) (r : Request) (b : Book) : Option (Nat × Nat × Int × Book) :=
  match b.admission V r with
  | (some _, _) => none
  | (none, b) =>
    match b.accept V r with
    | none => none
    | some (i, b) =>
      if b.matchesOnEntry r then
        let (ts, b) := b.monoNsNow V
        some (i, ts, (b.order i).remainingQty, b)
      else none

/-- Where matching starts, the order just accepted is in flight with all its quantity. -/
theorem startMatch_accepted (hm : b.startMatch V r = some (t, ts, x)) :
    (b.admission V r).1 = none ∧ ∃ b1, (b.admission V r).2.accept V r = some (t, b1) ∧ b1.matchesOnEntry r ∧
      ts = (b1.monoNsNow V).1 ∧ x = ((b1.order t).remainingQty, (b1.monoNsNow V).2) := by
  unfold Book.startMatch at hm
  split at hm
  · cases hm
  · rename_i b0 hadm
    rw [hadm]
    split at hm
    · cases hm
    · rename_i i b1 hacc
      split at hm
      · rename_i he
        cases hm
        exact ⟨rfl, b1, hacc, he, rfl, rfl⟩
      · cases hm

theorem startMatch_eq (h : b.Continuous) (hm : b.startMatch V r = some (t, ts, x)) : b.screen V r = none ∧
    ∃ b1, b.accept V r = some (t, b1) ∧ (r.type ≠ .postOnly ∧ r.type ≠ .hidden) ∧
      (∀ n, b1.matchAgainst V n t = Book.priceLoop V t ts n x.1 x.2) ∧
      x = ((b1.order t).remainingQty, (b1.monoNsNow V).2) := by
  obtain ⟨hs, b1, ha, hon, rfl, rfl⟩ := startMatch_accepted hm
  rw [admission_eq h] at hs ha
  have hg := (accept_continuous h ha).gates.auction
  unfold Book.matchesOnEntry at hon
  rw [hg] at hon
  simp only [ne_eq, Bool.not_false, Bool.and_true, Bool.and_eq_true, decide_eq_true_eq] at hon
  exact ⟨hs, b1, ha, hon, fun n => rfl, rfl⟩

/-- More fuel changes nothing. -/
theorem submit_mono {y : (Nat × RejectReason) × Book} (h : b.Continuous) (hle : n ≤ k) (hs : Book.submit V n r b = some y) :
    Book.submit V k r b = some y := by
  cases n with
  | zero => cases hs
  | succ n =>
    obtain ⟨k, rfl⟩ := Nat.exists_eq_succ_of_ne_zero (Nat.ne_of_gt (Nat.lt_of_lt_of_le n.succ_pos hle))
    have hle : n ≤ k := Nat.le_of_succ_le_succ hle
    rw [submit_eq h] at hs ⊢
    cases hsc : b.screen V r with
    | some reason =>
      rw [hsc] at hs
      exact hs
    | none =>
      rw [hsc] at hs
      cases ha : b.accept V r with
      | none =>
        rw [ha] at hs
        exact hs
      | some z =>
        obtain ⟨i, b1⟩ := z
        rw [ha] at hs
        dsimp only at hs ⊢
        obtain ⟨b3, hb, hy⟩ := Option.map_eq_some_iff.mp hs
        obtain ⟨b2, hm, hf⟩ := Option.bind_eq_some_iff.mp hb
        have hm' : b1.matchEntry V k r i = some b2 := by
          unfold Book.matchEntry at hm ⊢
          split at hm
          · rename_i hc
            rw [if_pos hc]
            exact priceLoop_mono hle hm
          · rename_i hc
            rw [if_neg hc]
            exact hm
        rw [hm', Option.bind_some, hf, Option.map_some, hy]

/-- A `submit` whose price loop does not end does not return. -/
theorem submit_stuck (h : b.Continuous) (hm : b.startMatch V r = some (t, ts, x))
    (hn : ∀ n, Book.priceLoop V t ts n x.1 x.2 = none) (n : Nat) : Book.submit V n r b = none := by
  cases n with
  | zero => rfl
  | succ n =>
    obtain ⟨hs, b1, ha, hty, hloop, -⟩ := startMatch_eq h hm
    rw [submit_eq h, hs]
    rw [ha]
    dsimp only
    unfold Book.matchEntry
    rw [if_pos hty, hloop, hn]
    rfl

end

end HftLab.OrderBook
