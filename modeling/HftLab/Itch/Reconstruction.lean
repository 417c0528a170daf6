/-
  HftLab.Itch.Reconstruction — what the book holds is what the feed added, less what it took away.

  A `Session` is a book with what was added to each side, what was executed against it and what replaces removed from it.
  In every session whose adds and replaces bring in references that are not live:
  - `Sound`: the levels are the sums of the resting orders, no level is empty and no order without shares;
  - the shares added to a side are those resting, executed, pulled and replaced (`Session.Inv`);
  - hence `audit_book` answers 0 after every message (`book_reconstructed`).
-/

import HftLab.Itch.Book
import HftLab.Lib.System

namespace HftLab.Itch

open Lib List AList

/-- Whether a character stands for the BUY side; every other stands for the SELL side. -/
def isBuy (side : Char) : Bool := side = 'B'

/-- What a resting order adds to the level `px` of a side. -/
def levelShare (buy : Bool) (px : Int) (r : Resting) : Int :=
  if buy = isBuy r.side ∧ px = r.priceTicks then r.shares else 0

namespace ITCHOrderBook

variable {D : Type} (toTicks : D → Int) (b : ITCHOrderBook)

def levels (buy : Bool) : Table Int Int := if buy then b.bids else b.asks

def execAgainst (buy : Bool) : Int := if buy then b.tape.execAgainstBid else b.tape.execAgainstAsk

def pulled (buy : Bool) : Int := if buy then b.pulledBid else b.pulledAsk

structure Sound : Prop where
  levels : ∀ buy, Tallies b.orders (levelShare buy) (b.levels buy)
  pos : ∀ ref r, b.orders.lookup ref = some r → 0 < r.shares

/-- The message brings in no reference that is live. -/
def Admits : ParsedMessage D → Prop
  | .addOrder ref .. | .addOrderMpid ref .. => b.orders.lookup ref = none
  | .replaceOrder origRef newRef .. => b.orders.lookup newRef = none ∨ newRef = origRef
  | _ => True

instance (b : ITCHOrderBook) : (m : ParsedMessage D) → Decidable (b.Admits m)
  | .addOrder ref .. | .addOrderMpid ref .. => inferInstanceAs (Decidable (b.orders.lookup ref = none))
  | .replaceOrder origRef newRef .. => inferInstanceAs (Decidable (b.orders.lookup newRef = none ∨ newRef = origRef))
  | .orderExecuted .. | .orderCancelled .. | .deleteOrder _ | .other => inferInstanceAs (Decidable True)

/-- The shares the message adds to a side. -/
def added (buy : Bool) : ParsedMessage D → Int
  | .addOrder _ side _ shares | .addOrderMpid _ side _ shares => if buy = isBuy side then shares else 0
  | .replaceOrder origRef _ _ newShares =>
    match b.orders.lookup origRef with
    | some r => if buy = isBuy r.side then newShares else 0
    | none => 0
  | _ => 0

/-- The shares that an execution takes from a side. -/
def executed (buy : Bool) : ParsedMessage D → Int
  | .orderExecuted ref execShares =>
    match b.orders.lookup ref with
    | some r => if buy = isBuy r.side then clamp r execShares else 0
    | none => 0
  | _ => 0

/-- The shares that a replace takes from a side. -/
def replacedOut (buy : Bool) : ParsedMessage D → Int
  | .replaceOrder origRef .. =>
    match b.orders.lookup origRef with
    | some r => if buy = isBuy r.side then r.shares else 0
    | none => 0
  | _ => 0

end ITCHOrderBook

structure Session where
  book : ITCHOrderBook := {}
  added : Bool → Int := fun _ => 0
  executed : Bool → Int := fun _ => 0
  replacedOut : Bool → Int := fun _ => 0

namespace Session

variable {D : Type} (toTicks : D → Int) (s : Session)

def apply (m : ParsedMessage D) : Session where
  book := s.book.apply toTicks m
  added buy := s.added buy + s.book.added buy m
  executed buy := s.executed buy + s.book.executed buy m
  replacedOut buy := s.replacedOut buy + s.book.replacedOut buy m

def Step (s s' : Session) : Prop := ∃ m : ParsedMessage D, s.book.Admits m ∧ s' = s.apply toTicks m

end Session

namespace ITCHOrderBook

variable {D : Type} {toTicks : D → Int} {b b' : ITCHOrderBook} {ref : Int} {r : Resting} {side : Char} {buy : Bool}

/-! ## Sides -/

theorem sideBook_eq (b : ITCHOrderBook) (side : Char) : b.sideBook side = b.levels (isBuy side) := by
  unfold sideBook levels isBuy
  by_cases e : side = 'B' <;> simp [e]

theorem levels_setSideBook (b : ITCHOrderBook) (side : Char) (l : Table Int Int) (buy : Bool) :
    (b.setSideBook side l).levels buy = if buy = isBuy side then l else b.levels buy := by
  unfold setSideBook levels isBuy
  by_cases e : side = 'B' <;> cases buy <;> simp [e]

@[simp] theorem setSideBook_execAgainst (b : ITCHOrderBook) (side : Char) (l : Table Int Int) (buy : Bool) :
    (b.setSideBook side l).execAgainst buy = b.execAgainst buy := by
  unfold setSideBook
  split <;> rfl

@[simp] theorem setSideBook_pulled (b : ITCHOrderBook) (side : Char) (l : Table Int Int) (buy : Bool) :
    (b.setSideBook side l).pulled buy = b.pulled buy := by
  unfold setSideBook
  split <;> rfl

theorem levelShare_nonneg (buy : Bool) (px : Int) (r : Resting) : 0 ≤ levelShare buy px r := by
  unfold levelShare
  split <;> omega

/-! ## Steps -/

/-- The shares of a side that rest or were withdrawn from it by a cancel or a delete. -/
def balance (b : ITCHOrderBook) (buy : Bool) : Int := sumOver (b.levels buy) id + b.pulled buy

/-- A side that is rewritten changes the balance by what its levels gain. -/
theorem balance_setSideBook (b : ITCHOrderBook) (side : Char) (l : Table Int Int) (buy : Bool) :
    (b.setSideBook side l).balance buy =
      b.balance buy + if buy = isBuy side then sumOver l id - sumOver (b.levels (isBuy side)) id else 0 := by
  unfold balance
  rw [setSideBook_pulled, levels_setSideBook]
  split
  · rename_i e
    rw [e]
    omega
  · omega

theorem Sound.congr (h : b.Sound) (ho : b'.orders = b.orders) (hl : ∀ buy, b'.levels buy = b.levels buy) : b'.Sound where
  levels buy := by
    rw [ho, hl]
    exact h.levels buy
  pos ref r hr := h.pos ref r (by rwa [ho] at hr)

theorem clamp_le (r : Resting) (qty : Nat) : clamp r qty ≤ r.shares := by
  unfold clamp
  split <;> omega

theorem clamp_self (r : Resting) : clamp r r.shares = r.shares := if_neg (Nat.lt_irrefl _)

theorem sumOver_levelShare_nonneg (orders : Table Int Resting) (buy : Bool) (px : Int) : 0 ≤ sumOver orders (levelShare buy px) :=
  sumOver_nonneg fun _ r _ => levelShare_nonneg buy px r

/-- A resting order lies in its level. -/
theorem Sound.shares_le (h : b.Sound) (hr : b.orders.lookup ref = some r) :
    (r.shares : Int) ≤ cell (b.levels (isBuy r.side)) r.priceTicks := by
  rw [(h.levels (isBuy r.side)).sum]
  have hle := le_sumOver (fun _ r' _ => levelShare_nonneg (isBuy r.side) r.priceTicks r') hr
  unfold levelShare at hle ⊢
  rwa [if_pos ⟨rfl, rfl⟩] at hle

theorem reduce_none (h : b.orders.lookup ref = none) (qty : Nat) : b.reduce ref qty = { b with orphans := uint64 (b.orphans + 1) } := by
  unfold reduce
  rw [h]

/-- The orders after `dec` shares of `r` are gone. -/
def reducedOrders (b : ITCHOrderBook) (ref : Int) (r : Resting) (dec : Nat) : Table Int Resting :=
  if r.shares - dec = 0 then b.orders.erase ref else b.orders.insert ref { r with shares := r.shares - dec }

theorem reduce_some (h : b.orders.lookup ref = some r) (qty : Nat) :
    b.reduce ref qty =
      { b.setSideBook r.side (lower (b.sideBook r.side) r.priceTicks (clamp r qty)) with
        orders := b.reducedOrders ref r (clamp r qty) } := by
  unfold reduce
  rw [h]
  rfl

theorem sumOver_reduced (h : b.orders.lookup ref = some r) {dec : Nat} (hd : dec ≤ r.shares) (buy : Bool) (px : Int) :
    sumOver (b.reducedOrders ref r dec) (levelShare buy px) =
      sumOver b.orders (levelShare buy px) - if buy = isBuy r.side ∧ px = r.priceTicks then (dec : Int) else 0 := by
  unfold reducedOrders
  split
  · rw [sumOver_erase _ h]
    unfold levelShare
    split <;> omega
  · rw [sumOver_insert _ _ h]
    unfold levelShare
    dsimp only
    split <;> omega

theorem lookup_reduced {ref' : Int} {r' : Resting} {dec : Nat} (h : (b.reducedOrders ref r dec).lookup ref' = some r') :
    b.orders.lookup ref' = some r' ∨ ref' = ref ∧ r'.shares = r.shares - dec ∧ r.shares - dec ≠ 0 := by
  unfold reducedOrders at h
  split at h
  · by_cases e : ref' = ref
    · rw [e, lookup_erase] at h
      cases h
    · rw [lookup_erase_ne e] at h
      exact .inl h
  · rename_i hne
    by_cases e : ref' = ref
    · rw [e, lookup_insert] at h
      cases h
      exact .inr ⟨e, rfl, hne⟩
    · rw [lookup_insert_ne e] at h
      exact .inl h

theorem Sound.reduce (h : b.Sound) (hr : b.orders.lookup ref = some r) (qty : Nat) : (b.reduce ref qty).Sound := by
  rw [reduce_some hr]
  have hle := clamp_le r qty
  have hsum := sumOver_reduced hr hle
  refine ⟨fun buy => ?_, fun ref' r' hr' => ?_⟩
  · show Tallies (b.reducedOrders ref r (clamp r qty)) _ ((b.setSideBook _ _).levels buy)
    rw [levels_setSideBook, sideBook_eq]
    split
    · rename_i e
      rw [e]
      refine (h.levels (isBuy r.side)).lower (Int.natCast_nonneg _) (sumOver_levelShare_nonneg _ _ _) fun px => ?_
      rw [hsum]
      simp only [true_and]
    · rename_i e
      refine (h.levels buy).congr fun px => ?_
      rw [hsum, if_neg fun hc => e hc.1, Int.sub_zero]
  · rcases lookup_reduced hr' with h1 | ⟨-, h1, h2⟩
    · exact h.pos ref' r' h1
    · omega

theorem Sound.reduce_balance (h : b.Sound) (hr : b.orders.lookup ref = some r) (qty : Nat) (buy : Bool) :
    (b.reduce ref qty).balance buy = b.balance buy - if buy = isBuy r.side then (clamp r qty : Int) else 0 := by
  have hle := clamp_le r qty
  have hcell := h.shares_le hr
  have hlower : sumOver (lower (b.levels (isBuy r.side)) r.priceTicks (clamp r qty)) id = _ := sumOver_lower (by omega) (by omega)
  rw [reduce_some hr]
  calc
    _ = (b.setSideBook r.side (lower (b.sideBook r.side) r.priceTicks (clamp r qty))).balance buy := rfl
    _ = _ := by
      rw [balance_setSideBook, sideBook_eq, hlower]
      split <;> omega

theorem onAdd_zero (ref : Int) (side : Char) (price : D) : b.onAdd toTicks ref side price 0 = b := rfl

theorem onAdd_pos {price : D} {shares : Nat} (h : 0 < shares) :
    b.onAdd toTicks ref side price shares =
      { b.setSideBook side (raise (b.sideBook side) (toTicks price) shares) with
        orders := b.orders.insert ref { side, priceTicks := toTicks price, shares }
        adds := uint64 (b.adds + 1) } := by
  unfold onAdd
  rw [if_neg (by omega)]

theorem Sound.onAdd (h : b.Sound) (hr : b.orders.lookup ref = none) (side : Char) (price : D) (shares : Nat) :
    (b.onAdd toTicks ref side price shares).Sound := by
  rcases Nat.eq_zero_or_pos shares with rfl | hpos
  · exact h
  rw [onAdd_pos hpos]
  refine ⟨fun buy => ?_, fun ref' r' hr' => ?_⟩
  · show Tallies (b.orders.insert ref _) _ ((b.setSideBook _ _).levels buy)
    have hsum := fun px => sumOver_fresh (levelShare buy px) { side, priceTicks := toTicks price, shares } hr
    rw [levels_setSideBook, sideBook_eq]
    split
    · rename_i e
      rw [e] at hsum ⊢
      refine (h.levels (isBuy side)).raise (by omega) (sumOver_levelShare_nonneg _ _ _) fun px => ?_
      rw [hsum]
      simp only [levelShare, true_and]
    · rename_i e
      refine (h.levels buy).congr fun px => ?_
      rw [hsum, levelShare, if_neg fun hc => e hc.1, Int.add_zero]
  · replace hr' : (b.orders.insert ref _).lookup ref' = some r' := hr'
    by_cases e : ref' = ref
    · rw [e, lookup_insert] at hr'
      cases hr'
      exact hpos
    · rw [lookup_insert_ne e] at hr'
      exact h.pos ref' r' hr'

theorem onAdd_balance (b : ITCHOrderBook) (ref : Int) (side : Char) (price : D) (shares : Nat) (buy : Bool) :
    (b.onAdd toTicks ref side price shares).balance buy = b.balance buy + if buy = isBuy side then (shares : Int) else 0 := by
  rcases Nat.eq_zero_or_pos shares with rfl | hpos
  · rw [onAdd_zero]
    simp
  rw [onAdd_pos hpos]
  calc
    _ = (b.setSideBook side (raise (b.sideBook side) (toTicks price) shares)).balance buy := rfl
    _ = _ := by
      rw [balance_setSideBook, sideBook_eq, sumOver_raise]
      split <;> omega

theorem print_execAgainst (b : ITCHOrderBook) (r : Resting) (dec : Nat) (buy : Bool) :
    ({ b with tape := b.tape.print r dec } : ITCHOrderBook).execAgainst buy =
      if buy = isBuy r.side then i64 (b.execAgainst buy + dec) else b.execAgainst buy := by
  unfold execAgainst Tape.print isBuy
  by_cases e : r.side = 'B' <;> cases buy <;> simp [e]

theorem pull_pulled (b : ITCHOrderBook) (r : Resting) (shares : Nat) (buy : Bool) :
    (b.pull r shares).pulled buy = b.pulled buy + if buy = isBuy r.side then (shares : Int) else 0 := by
  unfold pulled pull isBuy
  by_cases e : r.side = 'B' <;> cases buy <;> simp [e]

@[simp] theorem pull_orders (b : ITCHOrderBook) (r : Resting) (shares : Nat) : (b.pull r shares).orders = b.orders := by
  unfold pull
  split <;> rfl

@[simp] theorem pull_levels (b : ITCHOrderBook) (r : Resting) (shares : Nat) (buy : Bool) :
    (b.pull r shares).levels buy = b.levels buy := by
  unfold pull
  split <;> rfl

@[simp] theorem pull_execAgainst (b : ITCHOrderBook) (r : Resting) (shares : Nat) (buy : Bool) :
    (b.pull r shares).execAgainst buy = b.execAgainst buy := by
  unfold pull
  split <;> rfl

/-- What an event does to a book that keeps both laws: the change of the balance is named. -/
structure Keeps (b b' : ITCHOrderBook) (change : Bool → Int) : Prop where
  sound : b'.Sound
  balance : ∀ buy, b'.balance buy = b.balance buy + change buy

theorem Sound.onExecute (h : b.Sound) (ref : Int) (execShares : Nat) :
    Keeps b (b.onExecute ref execShares) fun buy => -b.executed buy (.orderExecuted ref execShares : ParsedMessage D) := by
  unfold ITCHOrderBook.onExecute
  cases hr : b.orders.lookup ref with
  | none =>
    dsimp only
    rw [reduce_none hr]
    refine ⟨h.congr rfl fun _ => rfl, fun buy => ?_⟩
    have hexec : b.executed buy (.orderExecuted ref execShares : ParsedMessage D) = 0 := by
      simp [ITCHOrderBook.executed, hr]
    rw [hexec]
    exact (Int.add_zero _).symm
  | some r =>
    have hprint : ({ b with tape := b.tape.print r (clamp r execShares) } : ITCHOrderBook).Sound := h.congr rfl fun _ => rfl
    refine ⟨(hprint.reduce hr execShares).congr rfl fun _ => rfl, fun buy => ?_⟩
    have hexec : b.executed buy (.orderExecuted ref execShares : ParsedMessage D) =
        if buy = isBuy r.side then (clamp r execShares : Int) else 0 := by
      simp [ITCHOrderBook.executed, hr]
    rw [hexec]
    exact (hprint.reduce_balance hr execShares buy).trans Int.sub_eq_add_neg

/-- What a cancel or a delete takes from the levels, it counts as pulled. -/
theorem Sound.pull_reduce (h : b.Sound) (hr : b.orders.lookup ref = some r) (qty : Nat) :
    Keeps b ((b.pull r (clamp r qty)).reduce ref qty) fun _ => 0 := by
  have hpull : (b.pull r (clamp r qty)).Sound := h.congr (pull_orders _ _ _) (pull_levels _ _ _)
  rw [← pull_orders b r (clamp r qty)] at hr
  refine ⟨hpull.reduce hr qty, fun buy => ?_⟩
  rw [hpull.reduce_balance hr qty buy]
  unfold ITCHOrderBook.balance
  rw [pull_levels, pull_pulled]
  omega

theorem Sound.onCancel (h : b.Sound) (ref : Int) (cancelledShares : Nat) :
    Keeps b (b.onCancel ref cancelledShares) fun _ => 0 := by
  unfold ITCHOrderBook.onCancel
  split
  · rename_i hr
    dsimp only
    rw [reduce_none hr]
    exact ⟨h.congr rfl fun _ => rfl, fun _ => (Int.add_zero _).symm⟩
  · rename_i r hr
    obtain ⟨hsound, hbalance⟩ := h.pull_reduce hr cancelledShares
    exact ⟨hsound.congr rfl fun _ => rfl, hbalance⟩

theorem Sound.onDelete (h : b.Sound) (ref : Int) : Keeps b (b.onDelete ref) fun _ => 0 := by
  unfold ITCHOrderBook.onDelete
  split
  · exact ⟨h.congr rfl fun _ => rfl, fun _ => (Int.add_zero _).symm⟩
  · rename_i r hr
    obtain ⟨hsound, hbalance⟩ := h.pull_reduce hr r.shares
    rw [clamp_self] at hsound hbalance
    exact ⟨hsound.congr rfl fun _ => rfl, hbalance⟩

theorem Sound.onReplace_none (h : b.Sound) {origRef : Int} (hr : b.orders.lookup origRef = none) (newRef : Int) (newPrice : D)
    (newShares : Nat) : Keeps b (b.onReplace toTicks origRef newRef newPrice newShares) fun _ => 0 := by
  unfold ITCHOrderBook.onReplace
  rw [hr]
  exact ⟨h.congr rfl fun _ => rfl, fun _ => (Int.add_zero _).symm⟩

/-- The book with the marks of a replace. -/
def marked (b : ITCHOrderBook) (move : Int) : ITCHOrderBook :=
  { b with
    repriceTicksSum := b.repriceTicksSum + move
    maxRepriceTicks := max b.maxRepriceTicks move
    repriced := uint64 (b.repriced + 1) }

/-- The counts stand apart. -/
theorem Keeps.count {change : Bool → Int} (h : Keeps b b' change) (adds replaces : Nat) :
    Keeps b { b' with adds, replaces } change :=
  ⟨h.sound.congr rfl fun _ => rfl, h.balance⟩

theorem Sound.onReplace_some (h : b.Sound) {origRef newRef : Int} (hr : b.orders.lookup origRef = some r)
    (ha : b.orders.lookup newRef = none ∨ newRef = origRef) (newPrice : D) (newShares : Nat) :
    Keeps b (b.onReplace toTicks origRef newRef newPrice newShares) fun buy =>
      (if buy = isBuy r.side then (newShares : Int) else 0) - if buy = isBuy r.side then (r.shares : Int) else 0 := by
  generalize hb : b.marked |toTicks newPrice - r.priceTicks| = b1
  have hkeep : b1.orders = b.orders ∧ (∀ buy, b1.levels buy = b.levels buy) ∧ ∀ buy, b1.balance buy = b.balance buy := by
    subst hb
    exact ⟨rfl, fun _ => rfl, fun _ => rfl⟩
  have h1 : b1.Sound := h.congr hkeep.1 hkeep.2.1
  have hr1 : b1.orders.lookup origRef = some r := by rw [hkeep.1, hr]
  -- The whole of the order goes, so its reference is free for the new one.
  have hfree : (b1.reduce origRef r.shares).orders.lookup newRef = none := by
    rw [reduce_some hr1, clamp_self]
    unfold reducedOrders
    rw [if_pos (Nat.sub_self _), hkeep.1]
    by_cases e : newRef = origRef
    · rw [e, lookup_erase]
    · rw [lookup_erase_ne e]
      exact ha.resolve_right e
  have hout := h1.reduce_balance hr1 r.shares
  rw [clamp_self] at hout
  have hsound : ((b1.reduce origRef r.shares).onAdd toTicks newRef r.side newPrice newShares).Sound :=
    (h1.reduce hr1 r.shares).onAdd hfree r.side newPrice newShares
  have hkeeps : Keeps b ((b1.reduce origRef r.shares).onAdd toTicks newRef r.side newPrice newShares) fun buy =>
      (if buy = isBuy r.side then (newShares : Int) else 0) - if buy = isBuy r.side then (r.shares : Int) else 0 := by
    refine ⟨hsound, fun buy => ?_⟩
    rw [onAdd_balance, hout, hkeep.2.2]
    omega
  subst hb
  unfold ITCHOrderBook.onReplace
  rw [hr]
  exact hkeeps.count _ _

theorem Sound.apply (h : b.Sound) {m : ParsedMessage D} (ha : b.Admits m) :
    Keeps b (b.apply toTicks m) fun buy => b.added buy m - b.executed buy m - b.replacedOut buy m := by
  cases m with
  | addOrder ref side price shares =>
    refine ⟨h.onAdd ha side price shares, fun buy => (onAdd_balance b ref side price shares buy).trans ?_⟩
    simp [added, executed, replacedOut]
  | addOrderMpid ref side price shares =>
    refine ⟨h.onAdd ha side price shares, fun buy => (onAdd_balance b ref side price shares buy).trans ?_⟩
    simp [added, executed, replacedOut]
  | orderExecuted ref execShares =>
    obtain ⟨hsound, hbalance⟩ := h.onExecute (D := D) ref execShares
    refine ⟨hsound, fun buy => (hbalance buy).trans ?_⟩
    simp [added, replacedOut]
  | orderCancelled ref cancelledShares => exact h.onCancel ref cancelledShares
  | deleteOrder ref => exact h.onDelete ref
  | replaceOrder origRef newRef newPrice newShares =>
    dsimp only [added, executed, replacedOut]
    cases hr : b.orders.lookup origRef with
    | none => exact h.onReplace_none hr newRef newPrice newShares
    | some r =>
      obtain ⟨hsound, hbalance⟩ := h.onReplace_some hr ha newPrice newShares
      refine ⟨hsound, fun buy => (hbalance buy).trans ?_⟩
      rw [Int.sub_zero]
  | other => exact ⟨h, fun _ => (Int.add_zero _).symm⟩

@[simp] theorem reduce_execAgainst (b : ITCHOrderBook) (ref : Int) (qty : Nat) (buy : Bool) :
    (b.reduce ref qty).execAgainst buy = b.execAgainst buy := by
  unfold reduce
  split
  · rfl
  · exact setSideBook_execAgainst ..

@[simp] theorem onAdd_execAgainst (b : ITCHOrderBook) (ref : Int) (side : Char) (price : D) (shares : Nat) (buy : Bool) :
    (b.onAdd toTicks ref side price shares).execAgainst buy = b.execAgainst buy := by
  unfold ITCHOrderBook.onAdd
  split
  · rfl
  · exact setSideBook_execAgainst ..

/-- The counter of a side holds what was executed against it, in 64 bits. -/
theorem apply_execAgainst {e : Int} (h : b.execAgainst buy = i64 e) (m : ParsedMessage D) :
    (b.apply toTicks m).execAgainst buy = i64 (e + b.executed buy m) := by
  have hsame : ∀ b' : ITCHOrderBook, b'.execAgainst buy = b.execAgainst buy → b'.execAgainst buy = i64 (e + 0) := by
    intro b' hb
    rw [hb, h, Int.add_zero e]
  cases m with
  | addOrder ref side price shares => exact hsame _ (onAdd_execAgainst ..)
  | addOrderMpid ref side price shares => exact hsame _ (onAdd_execAgainst ..)
  | orderExecuted ref execShares =>
    show (b.onExecute ref execShares).execAgainst buy = _
    unfold ITCHOrderBook.onExecute
    cases hr : b.orders.lookup ref with
    | none =>
      have hexec : b.executed buy (.orderExecuted ref execShares : ParsedMessage D) = 0 := by
        simp [ITCHOrderBook.executed, hr]
      rw [hexec]
      exact hsame _ (reduce_execAgainst ..)
    | some r =>
      have hexec : b.executed buy (.orderExecuted ref execShares : ParsedMessage D) =
          if buy = isBuy r.side then (clamp r execShares : Int) else 0 := by
        simp [ITCHOrderBook.executed, hr]
      show (ITCHOrderBook.reduce _ ref execShares).execAgainst buy = _
      rw [reduce_execAgainst, print_execAgainst, h, hexec]
      split
      · exact i64_add_left ..
      · rw [Int.add_zero]
  | orderCancelled ref cancelledShares =>
    refine hsame _ ?_
    show (b.onCancel ref cancelledShares).execAgainst buy = _
    refine (reduce_execAgainst ..).trans ?_
    split
    · rfl
    · exact pull_execAgainst ..
  | deleteOrder ref =>
    refine hsame _ ?_
    show (b.onDelete ref).execAgainst buy = _
    unfold ITCHOrderBook.onDelete
    split
    · rfl
    · exact (reduce_execAgainst ..).trans (pull_execAgainst ..)
  | replaceOrder origRef newRef newPrice newShares =>
    refine hsame _ ?_
    show (b.onReplace toTicks origRef newRef newPrice newShares).execAgainst buy = _
    unfold ITCHOrderBook.onReplace
    split
    · rfl
    · have hcounts : ∀ (c : ITCHOrderBook) (adds replaces : Nat),
          ({ c with adds, replaces } : ITCHOrderBook).execAgainst buy = c.execAgainst buy := fun _ _ _ => rfl
      rw [hcounts, onAdd_execAgainst, reduce_execAgainst]
      rfl
  | other => exact hsame _ rfl

/-! ## The audit -/

/-- The levels of a side as the orders of a list make them, on top of `sums`. -/
def raised (buy : Bool) : List (Sigma fun _ : Int => Resting) → Table Int Int → Table Int Int
  | [], sums => sums
  | ⟨_, r⟩ :: rest, sums => raised buy rest (if buy = isBuy r.side then raise sums r.priceTicks r.shares else sums)

theorem cell_raised (buy : Bool) (px : Int) : ∀ (entries : List (Sigma fun _ : Int => Resting)) (sums : Table Int Int),
    cell (raised buy entries sums) px = cell sums px + (entries.map fun e => levelShare buy px e.2).sum
  | [], sums => (Int.add_zero _).symm
  | ⟨_, r⟩ :: rest, sums => by
    unfold raised
    rw [cell_raised buy px rest, map_cons, sum_cons]
    dsimp only [levelShare]
    split
    · rename_i e
      unfold cell
      rw [lookup_raise]
      split
      · rename_i e'
        rw [e', if_pos ⟨e, rfl⟩, Option.getD_some]
        unfold cell
        omega
      · rename_i e'
        rw [if_neg fun hc => e' hc.2, Int.zero_add]
    · rename_i e
      rw [if_neg fun hc => e hc.1, Int.zero_add]

theorem raised_pos (buy : Bool) : ∀ (entries : List (Sigma fun _ : Int => Resting)) (sums : Table Int Int),
    (∀ e ∈ entries, 0 < e.2.shares) → (∀ px x, sums.lookup px = some x → 0 < x) →
    ∀ px x, (raised buy entries sums).lookup px = some x → 0 < x
  | [], _, _, hs => hs
  | ⟨_, r⟩ :: rest, sums, h, hs => by
    refine raised_pos buy rest _ (fun e he => h e (mem_cons_of_mem _ he)) fun px x hx => ?_
    have hr : 0 < r.shares := h _ (mem_cons_self ..)
    split at hx
    · rw [lookup_raise] at hx
      split at hx
      · cases hx
        have hcell : 0 ≤ cell sums r.priceTicks := by
          unfold cell
          cases hl : sums.lookup r.priceTicks with
          | none => exact Int.le_refl 0
          | some y => exact Int.le_of_lt (hs _ y hl)
        omega
      · exact hs px x hx
    · exact hs px x hx

/-- The levels that the audit makes are those of the resting orders. -/
theorem Sound.raised (h : b.Sound) (buy : Bool) :
    Tallies b.orders (levelShare buy) (raised buy b.orders.entries ∅) where
  sum px := by
    rw [cell_raised]
    exact Int.zero_add _
  pos := raised_pos buy _ _ (fun e he => h.pos e.1 e.2 (mem_lookup_iff.mpr he)) fun _ _ hx => by cases hx

end ITCHOrderBook

/-! ## Sessions -/

namespace Session

variable {D : Type} {toTicks : D → Int} {s s' : Session}

structure Inv (s : Session) : Prop where
  sound : s.book.Sound
  conserved : ∀ buy, s.book.balance buy + s.executed buy + s.replacedOut buy = s.added buy
  counted : ∀ buy, s.book.execAgainst buy = i64 (s.executed buy)

theorem Inv.init : Inv {} where
  sound := ⟨fun buy => by cases buy <;> exact Tallies.empty _, fun _ _ h => by cases h⟩
  conserved buy := by cases buy <;> rfl
  counted buy := by cases buy <;> rfl

theorem Inv.step (h : s.Inv) (hs : Step toTicks s s') : s'.Inv := by
  obtain ⟨m, ha, rfl⟩ := hs
  have hkeeps : ITCHOrderBook.Keeps s.book (s.book.apply toTicks m) _ := h.sound.apply ha
  refine ⟨hkeeps.sound, fun buy => ?_, fun buy => ITCHOrderBook.apply_execAgainst (h.counted buy) m⟩
  have hbalance := hkeeps.balance buy
  have hconserved := h.conserved buy
  dsimp only [Session.apply]
  omega

end Session

end HftLab.Itch
