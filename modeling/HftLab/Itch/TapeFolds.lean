/-
  HftLab.Itch.TapeFolds — the statistics of the executions, told from the list of prints (itch_book.hpp).

  `prints` is the tape of a run: one entry for each execution that found its order. Every counter that `on_execute` keeps is a fold
  of it, whatever came in between (`tape_tells`). The shares are summed in 64 bits and the aggressor runs counted in 32: the
  sums are right as long as fewer than 2^63 shares are executed, the runs as long as no 2^31 prints in a row have the same
  aggressor.
-/

import HftLab.Itch.Reconstruction
import HftLab.Lib.Streaks

namespace HftLab.Itch

open Lib List

/-- An execution that found its order: whether the aggressor bought, and at which price. -/
structure Print where
  buy : Bool
  shares : Nat
  ticks : Int
  deriving DecidableEq, Repr

/-- Shares bought, or sold, by aggressors. -/
def traded (buy : Bool) (l : List Print) : Int := (l.map fun p => if p.buy = buy then (p.shares : Int) else 0).sum

def executed (l : List Print) : Int := traded true l + traded false l

def cumulativeDelta (l : List Print) : Int := traded true l - traded false l

/-- Positive where the last prints were bought, negative where they were sold. -/
def SignedRun (l : List Print) (run : Int) : Prop :=
  Trailing Print.buy true l (max run 0) ∧ Trailing Print.buy false l (max (-run) 0)

/-- What the statistics are to say of the tape. -/
structure Tape.Tells (t : Tape) (l : List Print) : Prop where
  total : executed l < 2 ^ 63 → t.execAgainstBid + t.execAgainstAsk = t.execSharesSum ∧ t.execSharesSum = executed l
  prints : l.length < 2 ^ 64 → t.buyPrints + t.sellPrints = l.length
  high : executed l < 2 ^ 63 → IsGreatest (alongPrefixes cumulativeDelta l) t.maxCumDelta
  low : executed l < 2 ^ 63 → IsLeast (alongPrefixes cumulativeDelta l) t.minCumDelta
  run : Brief Print.buy (2 ^ 31) l → SignedRun l t.aggressorRun
  longest : Brief Print.buy (2 ^ 31) l → Longest Print.buy true l t.maxBuyRun ∧ Longest Print.buy false l t.maxSellRun
  direction : LastChange (l.map Print.ticks) t.lastTickDir

namespace ITCHOrderBook

variable {D : Type} (toTicks : D → Int) (b : ITCHOrderBook)

def printOf : ParsedMessage D → Option Print
  | .orderExecuted ref execShares =>
    (b.orders.lookup ref).map fun r => { buy := r.side == 'S', shares := clamp r execShares, ticks := r.priceTicks }
  | _ => none

/-- The tape of a run. -/
def prints : ITCHOrderBook → List (ParsedMessage D) → List Print
  | _, [] => []
  | b, m :: ms => (b.printOf m).toList ++ prints (b.apply toTicks m) ms

end ITCHOrderBook

/-- Sides are `B` or `S`, prices at least one tick. -/
def ParsedMessage.Sided {D : Type} (toTicks : D → Int) : ParsedMessage D → Prop
  | .addOrder _ side price _ | .addOrderMpid _ side price _ => (side = 'B' ∨ side = 'S') ∧ 1 ≤ toTicks price
  | .replaceOrder _ _ newPrice _ => 1 ≤ toTicks newPrice
  | _ => True

/-! ## One print -/

/-- The tape after a print. -/
def Tape.record (t : Tape) (p : Print) : Tape :=
  t.print { side := if p.buy then 'S' else 'B', priceTicks := p.ticks, shares := p.shares } p.shares

/-- What the counters keep of the tape. -/
structure Tape.Follows (t : Tape) (l : List Print) : Prop where
  bought : t.execAgainstAsk = i64 (traded true l)
  sold : t.execAgainstBid = i64 (traded false l)
  total : t.execSharesSum = i64 (executed l)
  buys : t.buyPrints = uint64 (l.countP Print.buy)
  sells : t.sellPrints = uint64 (l.countP fun p => !p.buy)
  high : executed l < 2 ^ 63 → IsGreatest (alongPrefixes cumulativeDelta l) t.maxCumDelta
  low : executed l < 2 ^ 63 → IsLeast (alongPrefixes cumulativeDelta l) t.minCumDelta
  runs : Brief Print.buy (2 ^ 31) l →
    SignedRun l t.aggressorRun ∧ Longest Print.buy true l t.maxBuyRun ∧ Longest Print.buy false l t.maxSellRun
  last : t.lastTradeTicks = ((l.map Print.ticks).getLast?).getD 0
  priced : ∀ p ∈ l, 1 ≤ p.ticks
  direction : LastChange (l.map Print.ticks) t.lastTickDir

section

variable {t : Tape} {l : List Print} {p : Print}

theorem traded_concat (buy : Bool) (l : List Print) (p : Print) :
    traded buy (l ++ [p]) = traded buy l + if p.buy = buy then (p.shares : Int) else 0 := by
  simp [traded]

theorem traded_nonneg (buy : Bool) (l : List Print) : 0 ≤ traded buy l := by
  refine List.sum_nonneg fun x hx => ?_
  obtain ⟨p, -, rfl⟩ := mem_map.mp hx
  split <;> omega

theorem executed_concat (l : List Print) (p : Print) : executed (l ++ [p]) = executed l + p.shares := by
  unfold executed
  rw [traded_concat, traded_concat]
  cases p.buy <;> simp <;> omega

theorem Tape.follows_nil : Tape.Follows {} [] where
  bought := rfl
  sold := rfl
  total := rfl
  buys := rfl
  sells := rfl
  high _ := by
    rw [alongPrefixes_nil]
    exact isGreatest_singleton
  low _ := by
    rw [alongPrefixes_nil]
    exact isLeast_singleton
  runs _ := ⟨⟨trailing_nil, trailing_nil⟩, longest_nil, longest_nil⟩
  last := rfl
  priced := by simp
  direction := lastChange_nil

theorem Tape.record_run (t : Tape) (p : Print) : (t.record p).aggressorRun =
    if p.buy = true then if 0 < t.aggressorRun then i32 (t.aggressorRun + 1) else 1
    else if t.aggressorRun < 0 then i32 (t.aggressorRun - 1) else -1 := by
  cases hb : p.buy <;> simp [record, print, hb]

theorem Tape.record_maxRuns (t : Tape) (p : Print) :
    (t.record p).maxBuyRun = (if t.maxBuyRun < (t.record p).aggressorRun then (t.record p).aggressorRun else t.maxBuyRun) ∧
    (t.record p).maxSellRun =
      (if t.maxBuyRun < (t.record p).aggressorRun then t.maxSellRun
      else if t.maxSellRun < i32 (-(t.record p).aggressorRun) then i32 (-(t.record p).aggressorRun) else t.maxSellRun) := by
  cases hb : p.buy <;> simp [record, print, hb]

namespace Tape.Follows

variable (h : t.Follows l) (p : Print)

include h

theorem record_bought : (t.record p).execAgainstAsk = i64 (traded true (l ++ [p])) := by
  have hbought := h.bought
  rw [traded_concat]
  cases hb : p.buy <;> simp [record, print, hb, hbought]

theorem record_sold : (t.record p).execAgainstBid = i64 (traded false (l ++ [p])) := by
  have hsold := h.sold
  rw [traded_concat]
  cases hb : p.buy <;> simp [record, print, hb, hsold]

theorem record_total : (t.record p).execSharesSum = i64 (executed (l ++ [p])) := by
  have htotal := h.total
  rw [executed_concat]
  cases hb : p.buy <;> simp [record, print, hb, htotal]

theorem record_buys : (t.record p).buyPrints = uint64 ((l ++ [p]).countP Print.buy) := by
  have hbuys := h.buys
  cases hb : p.buy
  · simp [record, print, hb, hbuys]
  · simp [record, print, hb, hbuys, uint64]

theorem record_sells : (t.record p).sellPrints = uint64 ((l ++ [p]).countP fun p => !p.buy) := by
  have hsells := h.sells
  cases hb : p.buy
  · simp [record, print, hb, hsells, uint64]
  · simp [record, print, hb, hsells]

theorem record_delta (hl : executed (l ++ [p]) < 2 ^ 63) :
    i64 ((t.record p).execAgainstAsk - (t.record p).execAgainstBid) = cumulativeDelta (l ++ [p]) := by
  have hbuys := traded_nonneg true (l ++ [p])
  have hsells := traded_nonneg false (l ++ [p])
  unfold executed at hl
  rw [h.record_bought p, h.record_sold p, i64_eq (x := traded true _) ⟨by omega, by omega⟩,
    i64_eq (x := traded false _) ⟨by omega, by omega⟩]
  exact i64_eq ⟨by omega, by omega⟩

omit h in
theorem executed_before (hl : executed (l ++ [p]) < 2 ^ 63) : executed l < 2 ^ 63 := by
  rw [executed_concat] at hl
  omega

theorem record_high (hl : executed (l ++ [p]) < 2 ^ 63) :
    IsGreatest (alongPrefixes cumulativeDelta (l ++ [p])) (t.record p).maxCumDelta := by
  have hmax : (t.record p).maxCumDelta = max (cumulativeDelta (l ++ [p])) t.maxCumDelta := by
    rw [← h.record_delta p hl, max_comm]
    cases hb : p.buy <;> simp [record, print, hb]
  rw [hmax]
  exact isGreatest_prefixes_concat (h.high (executed_before p hl))

theorem record_low (hl : executed (l ++ [p]) < 2 ^ 63) :
    IsLeast (alongPrefixes cumulativeDelta (l ++ [p])) (t.record p).minCumDelta := by
  have hmin : (t.record p).minCumDelta = min (cumulativeDelta (l ++ [p])) t.minCumDelta := by
    rw [← h.record_delta p hl, min_comm]
    cases hb : p.buy <;> simp [record, print, hb]
  rw [hmin]
  exact isLeast_prefixes_concat (h.low (executed_before p hl))

/-- The first print has no direction, as no price is 0. -/
theorem record_direction : LastChange ((l ++ [p]).map Print.ticks) (t.record p).lastTickDir := by
  have hdir : (t.record p).lastTickDir =
      if t.lastTradeTicks = 0 then t.lastTickDir
      else if t.lastTradeTicks < p.ticks then 1
      else if p.ticks < t.lastTradeTicks then -1
      else t.lastTickDir := by
    cases hb : p.buy <;> simp [record, print, hb]
  have hlast := h.last
  have hold := h.direction
  rw [hdir, map_append, map_singleton]
  rcases eq_nil_or_concat l with rfl | ⟨l', q, rfl⟩
  · have hzero : t.lastTradeTicks = 0 := hlast
    rw [if_pos hzero]
    rcases hold with ⟨-, hd⟩ | ⟨before, x, y, after, habsurd, -⟩
    · rw [hd]
      exact lastChange_singleton p.ticks
    · simp at habsurd
  · have hq := h.priced q (by simp)
    have hgetLast : ((l'.concat q).map Print.ticks).getLast? = some q.ticks := by simp
    rw [hgetLast, Option.getD_some] at hlast
    rw [hlast, if_neg (by omega)]
    rcases lt_trichotomy q.ticks p.ticks with hlt | heq | hgt
    · have hchange := lastChange_changed (z := p.ticks) hgetLast (by omega)
      rw [if_pos hlt]
      rwa [Int.sign_eq_one_of_pos (by omega)] at hchange
    · rw [if_neg (by omega), if_neg (by omega), ← heq]
      exact hold.same hgetLast
    · have hchange := lastChange_changed (z := p.ticks) hgetLast (by omega)
      rw [if_neg (by omega), if_pos hgt]
      rwa [Int.sign_eq_neg_one_of_neg (by omega)] at hchange

theorem record_signedRun (hb : Brief Print.buy (2 ^ 31) (l ++ [p])) : SignedRun (l ++ [p]) (t.record p).aggressorRun := by
  obtain ⟨⟨hbuys, hsells⟩, -, -⟩ := h.runs hb.prefix
  rw [record_run]
  cases hbuy : p.buy with
  | true =>
    have hnext := hbuys.concat hbuy
    have hlt := hnext.lt hb
    have hrun : (if 0 < t.aggressorRun then i32 (t.aggressorRun + 1) else 1) = max t.aggressorRun 0 + 1 := by
      split
      · rw [i32_eq ⟨by simp only [int32Min]; omega, by simp only [int32Max]; omega⟩]
        omega
      · omega
    have hsold : Trailing Print.buy false (l ++ [p]) 0 := trailing_broken (by rw [hbuy]; decide)
    rw [if_pos rfl, hrun]
    refine ⟨?_, ?_⟩
    · rwa [max_eq_left (by omega)]
    · rwa [max_eq_right (by omega)]
  | false =>
    have hnext := hsells.concat hbuy
    have hlt := hnext.lt hb
    have hrun : (if t.aggressorRun < 0 then i32 (t.aggressorRun - 1) else -1) = -(max (-t.aggressorRun) 0 + 1) := by
      split
      · rw [i32_eq ⟨by simp only [int32Min]; omega, by simp only [int32Max]; omega⟩]
        omega
      · omega
    have hbought : Trailing Print.buy true (l ++ [p]) 0 := trailing_broken (by rw [hbuy]; decide)
    rw [if_neg Bool.false_ne_true, hrun]
    refine ⟨?_, ?_⟩
    · rwa [max_eq_right (by omega)]
    · rwa [neg_neg, max_eq_left (by omega)]

theorem record_longest (hb : Brief Print.buy (2 ^ 31) (l ++ [p])) :
    Longest Print.buy true (l ++ [p]) (t.record p).maxBuyRun ∧ Longest Print.buy false (l ++ [p]) (t.record p).maxSellRun := by
  obtain ⟨-, hbuys, hsells⟩ := h.runs hb.prefix
  obtain ⟨hbought, hsold⟩ := h.record_signedRun p hb
  obtain ⟨hmaxBuy, hmaxSell⟩ := record_maxRuns t p
  have hbuysPos := hbuys.nonneg
  have hsellsPos := hsells.nonneg
  have hb' := hbuys.concat hbought
  have hs' := hsells.concat hsold
  have hlow := hsold.lt hb
  have hhigh := hbought.lt hb
  rw [hmaxBuy, hmaxSell]
  generalize (t.record p).aggressorRun = run at hb' hs' hlow hhigh ⊢
  have hneg : i32 (-run) = -run := i32_eq ⟨by simp only [int32Min]; omega, by simp only [int32Max]; omega⟩
  rw [hneg]
  refine ⟨?_, ?_⟩
  · have hmax : (if t.maxBuyRun < run then run else t.maxBuyRun) = max t.maxBuyRun (max run 0) := by
      split <;> omega
    rwa [hmax]
  · have hmax : (if t.maxBuyRun < run then t.maxSellRun else if t.maxSellRun < -run then -run else t.maxSellRun) =
        max t.maxSellRun (max (-run) 0) := by
      split
      · omega
      · split <;> omega
    rwa [hmax]

/-- One more print. -/
theorem record (hp : 1 ≤ p.ticks) : (t.record p).Follows (l ++ [p]) where
  bought := h.record_bought p
  sold := h.record_sold p
  total := h.record_total p
  buys := h.record_buys p
  sells := h.record_sells p
  high := h.record_high p
  low := h.record_low p
  runs hb := ⟨h.record_signedRun p hb, h.record_longest p hb⟩
  last := by
    rw [map_append, map_singleton, List.getLast?_append_of_ne_nil _ (by simp)]
    cases hb : p.buy <;> simp [Tape.record, print, hb]
  priced := by
    intro q hq
    rcases mem_append.mp hq with hq | hq
    · exact h.priced q hq
    · rw [mem_singleton.mp hq]
      exact hp
  direction := h.record_direction p

omit p in
theorem tells : t.Tells l where
  total hl := by
    have hbuys := traded_nonneg true l
    have hsells := traded_nonneg false l
    rw [h.bought, h.sold, h.total]
    unfold executed at hl ⊢
    rw [i64_eq ⟨by omega, by omega⟩, i64_eq ⟨by omega, by omega⟩, i64_eq ⟨by omega, by omega⟩]
    omega
  prints hlen := by
    have hsplit := l.length_eq_countP_add_countP Print.buy
    have hnot : (fun p : Print => decide ¬p.buy) = fun p => !p.buy := by
      funext p
      simp
    rw [hnot] at hsplit
    rw [h.buys, h.sells, uint64_eq (by omega), uint64_eq (by omega)]
    omega
  high := h.high
  low := h.low
  run hb := (h.runs hb).1
  longest hb := (h.runs hb).2
  direction := h.direction

end Tape.Follows

end

/-! ## Runs -/

namespace ITCHOrderBook

variable {D : Type} {toTicks : D → Int} {b : ITCHOrderBook} {ref : Int} {r : Resting} {m : ParsedMessage D} {q n : Nat}

/-- Orders are on a side, at a positive price. -/
def Sided (b : ITCHOrderBook) : Prop := ∀ ref r, b.orders.lookup ref = some r → (r.side = 'B' ∨ r.side = 'S') ∧ 1 ≤ r.priceTicks

@[simp] theorem setSideBook_tape (b : ITCHOrderBook) (side : Char) (l : Table Int Int) : (b.setSideBook side l).tape = b.tape := by
  unfold setSideBook
  split <;> rfl

@[simp] theorem pull_tape (b : ITCHOrderBook) (r : Resting) (shares : Nat) : (b.pull r shares).tape = b.tape := by
  unfold pull
  split <;> rfl

@[simp] theorem reduce_tape (b : ITCHOrderBook) (ref : Int) (qty : Nat) : (b.reduce ref qty).tape = b.tape := by
  unfold reduce
  split <;> simp

@[simp] theorem onAdd_tape (b : ITCHOrderBook) (ref : Int) (side : Char) (price : D) (shares : Nat) :
    (b.onAdd toTicks ref side price shares).tape = b.tape := by
  unfold onAdd
  split <;> simp

/-- The book is on sides after its orders were reduced. -/
theorem Sided.reduce (h : b.Sided) (ref : Int) (qty : Nat) : (b.reduce ref qty).Sided := by
  cases hr : b.orders.lookup ref with
  | none =>
    rw [reduce_none hr]
    exact h
  | some r =>
    rw [reduce_some hr]
    unfold Sided reducedOrders
    split
    · exact forall_erase h ref
    · exact forall_insert h (h ref r hr)

theorem Sided.onAdd (h : b.Sided) {side : Char} (hside : side = 'B' ∨ side = 'S') {price : D} (hp : 1 ≤ toTicks price)
    (ref : Int) (shares : Nat) : (b.onAdd toTicks ref side price shares).Sided := by
  unfold ITCHOrderBook.onAdd
  split
  · exact h
  · exact forall_insert h ⟨hside, hp⟩

/-- The counts stand apart. -/
theorem Sided.count (h : b.Sided) (adds replaces : Nat) : Sided { b with adds, replaces } := h

theorem Sided.apply (h : b.Sided) (hm : m.Sided toTicks) : (b.apply toTicks m).Sided := by
  have horders : ∀ b' : ITCHOrderBook, b'.orders = b.orders → b'.Sided := by
    intro b' ho ref r hr
    rw [ho] at hr
    exact h ref r hr
  cases m with
  | addOrder ref side price shares => exact h.onAdd hm.1 hm.2 ref shares
  | addOrderMpid ref side price shares => exact h.onAdd hm.1 hm.2 ref shares
  | orderExecuted ref execShares =>
    refine Sided.reduce ?_ ref execShares
    split
    · exact h
    · exact horders _ rfl
  | orderCancelled ref cancelledShares =>
    refine Sided.reduce ?_ ref cancelledShares
    split
    · exact h
    · exact horders _ (pull_orders ..)
  | deleteOrder ref =>
    show (b.onDelete ref).Sided
    unfold onDelete
    split
    · exact h
    · rename_i r _
      exact (horders (b.pull r r.shares) (pull_orders ..)).reduce ref r.shares
  | replaceOrder origRef newRef newPrice newShares =>
    show (b.onReplace toTicks origRef newRef newPrice newShares).Sided
    unfold onReplace
    split
    · exact h
    · rename_i r hr
      have hmarked : (b.marked |toTicks newPrice - r.priceTicks|).Sided := h
      exact (hmarked.reduce origRef r.shares).onAdd (h origRef r hr).1 hm newRef newShares |>.count _ _
  | other => exact h

theorem sided_run {ms : List (ParsedMessage D)} (hm : ∀ m ∈ ms, m.Sided toTicks) : (ms.foldl (apply toTicks) {}).Sided :=
  List.foldlRecOn ms (apply toTicks) (motive := Sided) (fun _ _ h => (by cases h)) fun _ hb m hmem => hb.apply (hm m hmem)

theorem print_eq (t : Tape) (hside : r.side = 'B' ∨ r.side = 'S') (dec : Nat) :
    t.print r dec = t.record { buy := r.side == 'S', shares := dec, ticks := r.priceTicks } := by
  rcases hside with hs | hs
  · simp [Tape.record, Tape.print, hs]
  · simp [Tape.record, Tape.print, hs]

/-- Only an execution that finds its order prints. -/
theorem apply_tape (h : b.Sided) (m : ParsedMessage D) : (b.apply toTicks m).tape = (b.printOf m).elim b.tape b.tape.record := by
  cases m with
  | addOrder ref side price shares => exact onAdd_tape ..
  | addOrderMpid ref side price shares => exact onAdd_tape ..
  | orderExecuted ref execShares =>
    show (b.onExecute ref execShares).tape = _
    unfold onExecute printOf
    dsimp only
    rw [reduce_tape]
    cases hr : b.orders.lookup ref with
    | none => rfl
    | some r => exact print_eq b.tape (h ref r hr).1 _
  | orderCancelled ref cancelledShares =>
    show (b.onCancel ref cancelledShares).tape = _
    unfold onCancel
    rw [reduce_tape]
    split
    · rfl
    · exact pull_tape ..
  | deleteOrder ref =>
    show (b.onDelete ref).tape = _
    unfold onDelete
    split
    · rfl
    · simp [printOf]
  | replaceOrder origRef newRef newPrice newShares =>
    show (b.onReplace toTicks origRef newRef newPrice newShares).tape = _
    unfold onReplace
    split
    · rfl
    · simp [printOf]
  | other => rfl

theorem printOf_priced (h : b.Sided) {p : Print} (hp : b.printOf m = some p) : 1 ≤ p.ticks := by
  cases m with
  | orderExecuted ref execShares =>
    obtain ⟨r, hr, rfl⟩ := Option.map_eq_some_iff.mp hp
    exact (h ref r hr).2
  | _ => cases hp

theorem follows_run (ms : List (ParsedMessage D)) {l : List Print} (h : b.Sided) (hl : b.tape.Follows l)
    (hm : ∀ m ∈ ms, m.Sided toTicks) : (ms.foldl (apply toTicks) b).tape.Follows (l ++ prints toTicks b ms) := by
  induction ms generalizing b l with
  | nil => simpa [prints] using hl
  | cons m ms ih =>
    have hnext : (b.apply toTicks m).tape.Follows (l ++ (b.printOf m).toList) := by
      rw [apply_tape h m]
      cases hp : b.printOf m with
      | none => simpa using hl
      | some p => exact hl.record p (printOf_priced h hp)
    rw [foldl_cons, prints, ← append_assoc]
    exact ih (h.apply (hm m mem_cons_self)) hnext fun m' hm' => hm m' (mem_cons_of_mem m hm')

theorem follows_fresh (ms : List (ParsedMessage D)) (hm : ∀ m ∈ ms, m.Sided toTicks) :
    (ms.foldl (apply toTicks) {}).tape.Follows (prints toTicks {} ms) := by
  have hfresh : Sided {} := fun _ _ h => (by cases h)
  exact follows_run ms hfresh Tape.follows_nil hm

/-- Over every run of a fresh book. -/
theorem tape_tells (ms : List (ParsedMessage D)) (hm : ∀ m ∈ ms, m.Sided toTicks) :
    (ms.foldl (apply toTicks) {}).tape.Tells (prints toTicks {} ms) :=
  (follows_fresh ms hm).tells

/-- An order that is sold into, a bid that is lifted, and an execution that finds none. -/
def sampleTape : List (ParsedMessage Int) :=
  [.addOrder 1 'B' 100 30, .addOrder 2 'S' 105 20, .orderExecuted 1 10, .orderExecuted 2 5, .orderExecuted 9 1, .orderExecuted 2 50]

theorem tape_tells_sample : (sampleTape.foldl (apply id) {}).tape.Tells (prints id {} sampleTape) :=
  tape_tells sampleTape (by simp [sampleTape, ParsedMessage.Sided])

/-! ## A long run -/

theorem prints_append (b : ITCHOrderBook) (ms ms' : List (ParsedMessage D)) :
    prints toTicks b (ms ++ ms') = prints toTicks b ms ++ prints toTicks (ms.foldl (apply toTicks) b) ms' := by
  induction ms generalizing b with
  | nil => rfl
  | cons m ms ih => rw [cons_append, prints, prints, ih, foldl_cons, append_assoc]

/-- An ask that is lifted `q` shares at a time. -/
theorem prints_sweep (q n : Nat) (h : b.orders.lookup ref = some r) (hside : r.side = 'S') (hn : n * q < r.shares) :
    prints toTicks b (List.replicate n (.orderExecuted ref q)) =
      List.replicate n { buy := true, shares := q, ticks := r.priceTicks } := by
  induction n generalizing b r with
  | zero => rfl
  | succ n ih =>
    rw [Nat.succ_mul] at hn
    have hclamp : clamp r q = q := by
      unfold clamp
      rw [if_pos (by omega)]
    have hnext : (b.apply toTicks (.orderExecuted ref q)).orders.lookup ref = some { r with shares := r.shares - q } := by
      show (b.onExecute ref q).orders.lookup ref = _
      unfold onExecute
      rw [h]
      dsimp only
      have hfound : ({ b with tape := b.tape.print r (clamp r q) } : ITCHOrderBook).orders.lookup ref = some r := h
      rw [reduce_some hfound, hclamp]
      unfold reducedOrders
      rw [if_neg (by omega), AList.lookup_insert]
    have hprint : b.printOf (.orderExecuted ref q : ParsedMessage D) = some { buy := true, shares := q, ticks := r.priceTicks } := by
      show (b.orders.lookup ref).map _ = _
      rw [h, Option.map_some, hclamp, hside]
      rfl
    rw [replicate_succ, prints, hprint, ih hnext hside (by dsimp only; omega), replicate_succ]
    rfl

def sampleSweep (q n : Nat) : List (ParsedMessage Int) := .addOrder 1 'S' 100 4294967295 :: List.replicate n (.orderExecuted 1 q)

def sampleLift (q : Nat) : Print := { buy := true, shares := q, ticks := 100 }

theorem sampleSweep_sided (q n : Nat) : ∀ m ∈ sampleSweep q n, m.Sided id := by
  intro m hm
  rcases mem_cons.mp hm with rfl | hm
  · exact ⟨.inr rfl, by decide⟩
  · obtain ⟨-, rfl⟩ := mem_replicate.mp hm
    trivial

theorem sampleSweep_prints (hn : n * q < 4294967295) : prints id {} (sampleSweep q n) = List.replicate n (sampleLift q) := by
  have hlookup : (apply id {} (.addOrder 1 'S' 100 4294967295 : ParsedMessage Int)).orders.lookup 1 =
      some { side := 'S', priceTicks := 100, shares := 4294967295 } := by decide +kernel
  exact prints_sweep q n hlookup rfl hn

theorem trailing_replicate (q n : Nat) : Trailing Print.buy true (List.replicate n (sampleLift q)) n := by
  induction n with
  | zero => exact trailing_nil
  | succ n ih =>
    rw [replicate_succ']
    exact ih.concat rfl

theorem brief_replicate {bound : Int} (hn : (n : Int) < bound) : Brief Print.buy bound (List.replicate n (sampleLift q)) := by
  intro k s hs _
  have hle := hs.length_le
  rw [length_replicate] at hle
  omega

/-- The run of 2^31 prints comes out negative. -/
theorem sweep_overflows (hn : n = 2147483648) :
    ¬SignedRun (prints id {} (sampleSweep 1 n)) ((sampleSweep 1 n).foldl (apply id) {}).tape.aggressorRun := by
  obtain ⟨m, rfl⟩ : ∃ m, n = m + 1 := ⟨n - 1, by omega⟩
  have hbefore := follows_fresh (sampleSweep 1 m) (sampleSweep_sided 1 m)
  rw [sampleSweep_prints (by omega)] at hbefore
  obtain ⟨⟨hrun, -⟩, -, -⟩ := hbefore.runs (brief_replicate (by omega))
  have hmax := hrun.unique (trailing_replicate 1 m)
  have hsweep : sampleSweep 1 (m + 1) = sampleSweep 1 m ++ [.orderExecuted 1 1] := by
    unfold sampleSweep
    rw [replicate_succ', cons_append]
  have hprint : ((sampleSweep 1 m).foldl (apply id) {}).printOf (.orderExecuted 1 1 : ParsedMessage Int) = some (sampleLift 1) := by
    have hprints := @prints_append Int id {} (sampleSweep 1 m) [.orderExecuted 1 1]
    rw [← hsweep, sampleSweep_prints (by omega), sampleSweep_prints (by omega), replicate_succ'] at hprints
    have hlast := append_cancel_left hprints
    rw [prints, prints, append_nil] at hlast
    cases hp : ((sampleSweep 1 m).foldl (apply id) {}).printOf (.orderExecuted 1 1 : ParsedMessage Int) with
    | none =>
      rw [hp] at hlast
      cases hlast
    | some p =>
      rw [hp] at hlast
      rw [singleton_inj.mp hlast]
  have htape : ((sampleSweep 1 (m + 1)).foldl (apply id) {}).tape =
      ((sampleSweep 1 m).foldl (apply id) {}).tape.record (sampleLift 1) := by
    rw [hsweep, foldl_append, foldl_cons, foldl_nil, apply_tape (sided_run (sampleSweep_sided 1 m)), hprint]
    rfl
  have hwrapped : ((sampleSweep 1 (m + 1)).foldl (apply id) {}).tape.aggressorRun = -2147483648 := by
    have hfull : ((sampleSweep 1 m).foldl (apply id) {}).tape.aggressorRun = 2147483647 := by omega
    rw [htape, Tape.record_run, hfull]
    decide
  intro h
  have hsigned := h.1
  rw [sampleSweep_prints (by omega), hwrapped] at hsigned
  have hunique := hsigned.unique (trailing_replicate 1 (m + 1))
  omega

/-- After 2^64 prints, of no shares each, the count of them is back at 0. -/
theorem sweep_uncounted (hn : n = 18446744073709551616) :
    ((sampleSweep 0 n).foldl (apply id) {}).tape.buyPrints + ((sampleSweep 0 n).foldl (apply id) {}).tape.sellPrints ≠
      (prints id {} (sampleSweep 0 n)).length := by
  have hfollows := follows_fresh (sampleSweep 0 n) (sampleSweep_sided 0 n)
  rw [sampleSweep_prints (by omega)] at hfollows ⊢
  have hbuys := hfollows.buys
  have hsells := hfollows.sells
  rw [countP_replicate] at hbuys hsells
  simp only [sampleLift, if_true, Bool.not_true, Bool.false_eq_true, if_false] at hbuys hsells
  rw [hbuys, hsells, length_replicate, hn]
  decide

theorem counters_overflow :
    ¬SignedRun (prints id {} (sampleSweep 1 2147483648)) ((sampleSweep 1 2147483648).foldl (apply id) {}).tape.aggressorRun ∧
    ((sampleSweep 0 18446744073709551616).foldl (apply id) {}).tape.buyPrints +
        ((sampleSweep 0 18446744073709551616).foldl (apply id) {}).tape.sellPrints ≠
      (prints id {} (sampleSweep 0 18446744073709551616)).length :=
  ⟨sweep_overflows rfl, sweep_uncounted rfl⟩

end ITCHOrderBook

end HftLab.Itch
