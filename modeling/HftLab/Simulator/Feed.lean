/-
  HftLab.Simulator.Feed — the generated feed, parsed and applied to an order book.

  The generator keeps a table of the orders it has left active; the book keeps what the messages added and took away. `Emits` says
  what one call sends and what it does to the table. `Mirrors`: every active order of the table rests in the book as the table has
  it, references are never used twice, and unless an order did not fit the table the book holds nothing else. Each call keeps
  this (`Mirrors.step`), so that no execution or cancel ever misses its order (`feed_consistent`).

  The references are 64-bit: the bound on the calls is that their counter does not run over.
-/

import HftLab.Itch.Parser
import HftLab.Itch.Reconstruction
import HftLab.Simulator.Generator
import Mathlib.Data.List.GetD
import Mathlib.Tactic.IntervalCases
import Mathlib.Tactic.Positivity

namespace HftLab.Simulator

open Lib Function List
open HftLab.Itch (ITCHOrderBook ParsedMessage Resting parse readBe64 readBe32 charAt)

/-! ## Reading what was packed -/

@[simp] theorem packBe_length (n : Nat) (val : Int) : (packBe n val).length = n := by
  induction n generalizing val with
  | zero => rfl
  | succ n ih => simp [packBe, ih]

@[simp] theorem packBe64_length (val : Int) : (packBe64 val).length = 8 := packBe_length ..

@[simp] theorem packBe32_length (val : Int) : (packBe32 val).length = 4 := packBe_length ..

@[simp] theorem stockField_length (symbol : List UInt8) : (stockField symbol).length = 8 := pad_length ..

/-- The remainder, byte by byte. -/
theorem emod_byte_mul (val : Int) {M : Int} (hM : 0 < M) : val % (256 * M) = val / 256 % M * 256 + val % 256 := by
  have h1 := Int.emod_add_mul_ediv val 256
  have h2 := Int.emod_add_mul_ediv (val / 256) M
  have h3 := Int.emod_nonneg (val / 256) (Int.ne_of_gt hM)
  have h4 := Int.emod_lt_of_pos (val / 256) hM
  have hsum : val / 256 % M * 256 + val % 256 + 256 * M * (val / 256 / M) = val := by
    calc val / 256 % M * 256 + val % 256 + 256 * M * (val / 256 / M)
        = val % 256 + 256 * (val / 256 % M + M * (val / 256 / M)) := by ring
      _ = val := by rw [h2, h1]
  exact ((Int.ediv_emod_unique (by omega)).mpr ⟨hsum, by omega, by omega⟩).2

theorem beNat_packBe (n : Nat) (val : Int) : (beNat (packBe n val) : Int) = val % 256 ^ n := by
  induction n generalizing val with
  | zero => simp [packBe, beNat]
  | succ n ih =>
    have hbyte : (((UInt8.ofNat (val % 256).toNat).toNat : Nat) : Int) = val % 256 := by
      rw [UInt8.toNat_ofNat']
      omega
    have hlast : (beNat (packBe (n + 1) val) : Int) = beNat (packBe n (val / 256)) * 256 + val % 256 := by
      simp only [packBe, beNat, foldl_append, foldl_cons, foldl_nil, Nat.cast_add, Nat.cast_mul, Nat.cast_ofNat]
      rw [hbyte]
    rw [hlast, ih, pow_succ', emod_byte_mul val (by positivity)]

section

variable {m : GeneratedMessage} (h : m.Packed) {i : Nat}

include h

theorem read_be64 {x : Int} (hf : (i, packBe64 x) ∈ m.fields) (hx : IsInt64 x) : readBe64 ((bytesOf m).drop i) = x := by
  have hslice : ((bytesOf m).drop i).take 8 = packBe64 x := h.slice _ hf (packBe64_length x)
  unfold readBe64
  rw [hslice, packBe64, beNat_packBe]
  show (x % ((18446744073709551616 : Nat) : Int)).bmod 18446744073709551616 = x
  rw [Int.emod_bmod]
  exact i64_eq hx

theorem read_be32 {x : Int} (hf : (i, packBe32 x) ∈ m.fields) (h0 : 0 ≤ x) (hx : x ≤ int32Max) :
    readBe32 ((bytesOf m).drop i) = x.toNat := by
  have hslice : ((bytesOf m).drop i).take 4 = packBe32 x := h.slice _ hf (packBe32_length x)
  have hval : (beNat (packBe32 x) : Int) = x := by
    rw [packBe32, beNat_packBe]
    unfold int32Max at hx
    exact Int.emod_eq_of_lt h0 (by norm_num; omega)
  unfold readBe32
  rw [hslice]
  omega

theorem read_char {b : UInt8} (hf : (i, [b]) ∈ m.fields) : charAt (bytesOf m) i = Char.ofNat b.toNat := by
  unfold charAt bytesOf
  rw [h.getD _ hf]

theorem bytesOf_length : (bytesOf m).length = m.length := h.message_length _

end

section

variable {D : Type} (ofRaw : Nat → D) {ts ref shares matchNum price : Int} {side : Char} {symbol : List UInt8}

theorem addFrame_packed : (addFrame ts ref side shares symbol price).Packed := by
  constructor <;> simp [addFrame, Adjacent, fieldBytes]

theorem executeFrame_packed : (executeFrame ts ref shares matchNum).Packed := by
  constructor <;> simp [executeFrame, Adjacent, fieldBytes]

theorem cancelFrame_packed : (cancelFrame ts ref shares).Packed := by
  constructor <;> simp [cancelFrame, Adjacent, fieldBytes]

theorem tradeFrame_packed : (tradeFrame ts side shares symbol price matchNum).Packed := by
  constructor <;> simp [tradeFrame, Adjacent, fieldBytes]

theorem systemEventFrame_packed {code : UInt8} : (systemEventFrame ts code).Packed := by
  constructor <;> simp [systemEventFrame, Adjacent, fieldBytes]

theorem parse_addFrame (href : IsInt64 ref) (h0 : 0 ≤ shares) (hs : shares ≤ int32Max) (hside : side = 'B' ∨ side = 'S') :
    ∃ p, (parse ofRaw (bytesOf (addFrame ts ref side shares symbol price))).forBook = .addOrder ref side p shares.toNat := by
  have h : (addFrame ts ref side shares symbol price).Packed := addFrame_packed
  have hlen : (bytesOf (addFrame ts ref side shares symbol price)).length = 34 := bytesOf_length h
  have htype : charAt (bytesOf (addFrame ts ref side shares symbol price)) 0 = 'A' := read_char h (mem_cons_self ..)
  have hr := read_be64 h (i := 9) (by simp [addFrame]) href
  have hq := read_be32 h (i := 18) (by simp [addFrame]) h0 hs
  have hc : charAt (bytesOf (addFrame ts ref side shares symbol price)) 17 = side := by
    rw [read_char h (i := 17) (b := side.toUInt8) (by simp [addFrame])]
    rcases hside with rfl | rfl <;> rfl
  refine ⟨ofRaw (readBe32 ((bytesOf (addFrame ts ref side shares symbol price)).drop 30)), ?_⟩
  unfold parse
  rw [if_neg (by omega), htype]
  unfold Itch.parseAddOrder
  rw [if_neg (by omega), hr, hc, hq]
  rfl

theorem parse_executeFrame (href : IsInt64 ref) (h0 : 0 ≤ shares) (hs : shares ≤ int32Max) :
    (parse ofRaw (bytesOf (executeFrame ts ref shares matchNum))).forBook = .orderExecuted ref shares.toNat := by
  have h : (executeFrame ts ref shares matchNum).Packed := executeFrame_packed
  have hlen : (bytesOf (executeFrame ts ref shares matchNum)).length = 29 := bytesOf_length h
  have htype : charAt (bytesOf (executeFrame ts ref shares matchNum)) 0 = 'E' := read_char h (mem_cons_self ..)
  have hr := read_be64 h (i := 9) (by simp [executeFrame]) href
  have hq := read_be32 h (i := 17) (by simp [executeFrame]) h0 hs
  unfold parse
  rw [if_neg (by omega), htype]
  unfold Itch.parseOrderExecuted
  rw [if_neg (by omega), hr, hq]
  rfl

theorem parse_cancelFrame (href : IsInt64 ref) (h0 : 0 ≤ shares) (hs : shares ≤ int32Max) :
    (parse ofRaw (bytesOf (cancelFrame ts ref shares))).forBook = .orderCancelled ref shares.toNat := by
  have h : (cancelFrame ts ref shares).Packed := cancelFrame_packed
  have hlen : (bytesOf (cancelFrame ts ref shares)).length = 21 := bytesOf_length h
  have htype : charAt (bytesOf (cancelFrame ts ref shares)) 0 = 'C' := read_char h (mem_cons_self ..)
  have hr := read_be64 h (i := 9) (by simp [cancelFrame]) href
  have hq := read_be32 h (i := 17) (by simp [cancelFrame]) h0 hs
  unfold parse
  rw [if_neg (by omega), htype]
  unfold Itch.parseOrderCancelled
  rw [if_neg (by omega), hr, hq]
  rfl

/-- Trades do not touch the book. -/
theorem parse_tradeFrame :
    (parse ofRaw (bytesOf (tradeFrame ts side shares symbol price matchNum))).forBook = .other := by
  have h : (tradeFrame ts side shares symbol price matchNum).Packed := tradeFrame_packed
  have hlen : (bytesOf (tradeFrame ts side shares symbol price matchNum)).length = 42 := bytesOf_length h
  have htype : charAt (bytesOf (tradeFrame ts side shares symbol price matchNum)) 0 = 'P' := read_char h (mem_cons_self ..)
  unfold parse
  rw [if_neg (by omega), htype]
  unfold Itch.parseTrade
  rw [if_neg (by omega)]
  rfl

theorem parse_systemEventFrame {code : UInt8} : (parse ofRaw (bytesOf (systemEventFrame ts code))).forBook = .other := by
  have h : (systemEventFrame ts code).Packed := systemEventFrame_packed
  have hlen : (bytesOf (systemEventFrame ts code)).length = 10 := bytesOf_length h
  have htype : charAt (bytesOf (systemEventFrame ts code)) 0 = 'S' := read_char h (mem_cons_self ..)
  unfold parse
  rw [if_neg (by omega), htype]
  unfold Itch.parseSystemEvent
  rw [if_neg (by omega)]
  rfl

end

/-! ## What a call sends -/

/-- Every slot of the table is taken. -/
def MarketDataGenerator.tableFull (g : MarketDataGenerator) : Bool :=
  (MarketDataGenerator.freeSlot g.activeOrders MAX_ACTIVE_ORDERS 0).isNone

/-- A new order in the table, if there is room. -/
def recorded (orders : Nat → ActiveOrder) (o : ActiveOrder) : Nat → ActiveOrder :=
  match MarketDataGenerator.freeSlot orders MAX_ACTIVE_ORDERS 0 with
  | none => orders
  | some i => Function.update orders i o

/-- What a call of the generator sends, as the book sees it, and what it makes of the table. -/
inductive Emits {D : Type} (g g' : MarketDataGenerator) : ParsedMessage D → Prop
  | add (o : ActiveOrder) (price : D) (n : Nat) : o.active = true → o.orderRef = g.orderRef + 1 → 0 < n → n ≤ 500 →
      o.shares = n → g'.orderRef = g.orderRef + 1 → g'.activeOrders = recorded g.activeOrders o →
      Emits g g' (.addOrder o.orderRef o.side price n)
  | execute (i n : Nat) : i < MAX_ACTIVE_ORDERS → (g.activeOrders i).active = true → 0 < n → (n : Int) ≤ (g.activeOrders i).shares →
      g'.orderRef = g.orderRef →
      g'.activeOrders = Function.update g.activeOrders i { g.activeOrders i with
        shares := (g.activeOrders i).shares - n, active := decide ((n : Int) < (g.activeOrders i).shares) } →
      Emits g g' (.orderExecuted (g.activeOrders i).orderRef n)
  | cancel (i n : Nat) : i < MAX_ACTIVE_ORDERS → (g.activeOrders i).active = true → (g.activeOrders i).shares = n →
      g'.orderRef = g.orderRef →
      g'.activeOrders = Function.update g.activeOrders i { g.activeOrders i with active := false } →
      Emits g g' (.orderCancelled (g.activeOrders i).orderRef n)
  | other : g'.orderRef = g.orderRef → g'.activeOrders = g.activeOrders → Emits g g' .other

theorem Emits.drawn {D : Type} {g g' : MarketDataGenerator} {m : ParsedMessage D} {n : Nat}
    (h : Emits { g with drawn := n } g' m) : Emits g g' m := by
  cases h with
  | add o p n h1 h2 h3 h4 h5 h6 h7 => exact .add o p n h1 h2 h3 h4 h5 h6 h7
  | execute i n h1 h2 h3 h4 h5 h6 => exact .execute i n h1 h2 h3 h4 h5 h6
  | cancel i n h1 h2 h3 h4 h5 => exact .cancel i n h1 h2 h3 h4 h5
  | other h1 h2 => exact .other h1 h2

namespace MarketDataGenerator

variable {D : Type} {rng : Rng} {stocks : List StockInfo} {g g' : MarketDataGenerator} {orders : Nat → ActiveOrder} {n i k : Nat}

theorem freeSlot_some (h : freeSlot orders n i = some k) : i ≤ k ∧ k < i + n ∧ (orders k).active = false := by
  induction n generalizing i with
  | zero => cases h
  | succ n ih =>
    unfold freeSlot at h
    split at h
    · have := ih h
      exact ⟨by omega, by omega, this.2.2⟩
    · rename_i ha
      cases h
      exact ⟨Nat.le_refl _, by omega, by simpa using ha⟩

theorem freeSlot_none (h : freeSlot orders n i = none) : ∀ k, i ≤ k → k < i + n → (orders k).active := by
  induction n generalizing i with
  | zero =>
    intro k h1 h2
    omega
  | succ n ih =>
    unfold freeSlot at h
    split at h
    · rename_i ha
      intro k h1 h2
      by_cases e : k = i
      · rw [e]
        exact ha
      · exact ih h k (by omega) (by omega)
    · cases h

theorem mem_activeSlots {left : Nat} (h : k ∈ activeSlots orders n i left) : k < i + n ∧ (orders k).active := by
  induction n generalizing i left with
  | zero => cases h
  | succ n ih =>
    unfold activeSlots at h
    split at h
    · cases h
    · split at h
      · rename_i ha
        rcases mem_cons.mp h with rfl | h
        · exact ⟨by omega, ha⟩
        · have := ih h
          exact ⟨by omega, this.2⟩
      · have := ih h
        exact ⟨by omega, this.2⟩

/-- Whatever slot is drawn is an active one. -/
theorem randomActiveOrder_some (h : g.randomActiveOrder rng = (some i, g')) :
    i < MAX_ACTIVE_ORDERS ∧ (g.activeOrders i).active ∧ g'.activeOrders = g.activeOrders ∧ g'.orderRef = g.orderRef := by
  unfold randomActiveOrder at h
  split at h
  · cases h
  · dsimp only at h
    split at h
    · cases h
    · rename_i hne
      have hlt := Nat.mod_lt (rng.next g.drawn) (Nat.pos_of_ne_zero hne)
      simp only [randInt, Prod.mk.injEq, Option.some.injEq] at h
      obtain ⟨rfl, rfl⟩ := h
      rw [getD_eq_getElem _ _ hlt]
      have := mem_activeSlots (getElem_mem hlt)
      exact ⟨by omega, this.2, rfl, rfl⟩

theorem randomActiveOrder_none (h : g.randomActiveOrder rng = (none, g')) : g' = g := by
  unfold randomActiveOrder at h
  split at h
  · exact (Prod.mk.inj h).2.symm
  · dsimp only at h
    split at h
    · exact (Prod.mk.inj h).2.symm
    · cases h

theorem record_eq (o : ActiveOrder) : (g.record o).activeOrders = recorded g.activeOrders o ∧ (g.record o).orderRef = g.orderRef := by
  unfold record recorded
  cases freeSlot g.activeOrders MAX_ACTIVE_ORDERS 0 with
  | none => exact ⟨rfl, rfl⟩
  | some i => exact ⟨rfl, rfl⟩

theorem shareSize_bounds (h : k < 6) : 0 < SHARE_SIZES.getD k 0 ∧ SHARE_SIZES.getD k 0 ≤ 500 := by
  interval_cases k <;> decide

/-- The table holds orders of the generator, none of them done. -/
structure Kept (g : MarketDataGenerator) : Prop where
  low : 1000 ≤ g.orderRef
  shares : ∀ i < MAX_ACTIVE_ORDERS, (g.activeOrders i).active = true →
    0 < (g.activeOrders i).shares ∧ (g.activeOrders i).shares ≤ 500
  refs : ∀ i < MAX_ACTIVE_ORDERS, (g.activeOrders i).active = true →
    1000 < (g.activeOrders i).orderRef ∧ (g.activeOrders i).orderRef ≤ g.orderRef

/-- The order that an add makes. -/
def drawnOrder (rng : Rng) (stocks : List StockInfo) (g : MarketDataGenerator) : ActiveOrder where
  orderRef := g.orderRef + 1
  stock := ((stocks[rng.next g.drawn % stocks.length]?.map StockInfo.symbol).getD []).take 8
  side := if rng.next (g.drawn + 2) % 2 = 0 then 'B' else 'S'
  price := rng.price (g.drawn + 1)
  shares := SHARE_SIZES.getD (rng.next (g.drawn + 3) % NUM_SHARE_SIZES) 0
  active := true

/-- What an add sends is the order that it records. -/
theorem generateAddOrder_eq (rng : Rng) (stocks : List StockInfo) (g : MarketDataGenerator) :
    ∃ gm : MarketDataGenerator, gm.activeOrders = g.activeOrders ∧ gm.orderRef = g.orderRef + 1 ∧
    g.generateAddOrder rng stocks =
      (addFrame (34200000000000 + ((gm.record (drawnOrder rng stocks g)).seq + 1) * 1000000) (gm.record (drawnOrder rng stocks g)).orderRef
        (drawnOrder rng stocks g).side (drawnOrder rng stocks g).shares
        ((stocks[rng.next g.drawn % stocks.length]?.map StockInfo.symbol).getD []) (drawnOrder rng stocks g).price,
      { gm.record (drawnOrder rng stocks g) with seq := (gm.record (drawnOrder rng stocks g)).seq + 1 }) := by
  refine ⟨{ g with drawn := g.drawn + 4, orderRef := g.orderRef + 1 }, rfl, rfl, ?_⟩
  rfl

theorem int64_of_room {ref : Int} (h0 : 0 ≤ ref) (h : ref ≤ g.orderRef + 1) (hroom : IsInt64 (g.orderRef + 1)) : IsInt64 ref := by
  unfold IsInt64 at *
  omega

theorem generateAddOrder_emits (ofRaw : Nat → D) (h : g.Kept) (hroom : IsInt64 (g.orderRef + 1)) :
    Emits g (g.generateAddOrder rng stocks).2 (parse ofRaw (bytesOf (g.generateAddOrder rng stocks).1)).forBook := by
  obtain ⟨gm, horders, href, he⟩ := generateAddOrder_eq rng stocks g
  generalize ho : drawnOrder rng stocks g = o at he
  have hact : o.active := by rw [← ho]; rfl
  have hoRef : o.orderRef = g.orderRef + 1 := by rw [← ho]; rfl
  have hsize : 0 < o.shares ∧ o.shares ≤ 500 := by
    rw [← ho]
    exact shareSize_bounds (Nat.mod_lt _ (by decide))
  have hside : o.side = 'B' ∨ o.side = 'S' := by
    rw [← ho]
    unfold drawnOrder
    split
    · exact .inl rfl
    · exact .inr rfl
  have hlow := h.low
  obtain ⟨hrec, hrec'⟩ := record_eq (g := gm) o
  rw [horders] at hrec
  rw [href, ← hoRef] at hrec'
  rw [he]
  dsimp only
  rw [hrec']
  have hadd : ∃ p, (parse ofRaw (bytesOf (addFrame (34200000000000 + ((gm.record o).seq + 1) * 1000000) o.orderRef o.side o.shares
      ((stocks[rng.next g.drawn % stocks.length]?.map StockInfo.symbol).getD []) o.price))).forBook =
        .addOrder o.orderRef o.side p o.shares.toNat :=
    parse_addFrame ofRaw (int64_of_room (by omega) (by omega) hroom) (by omega) (by unfold int32Max; omega) hside
  obtain ⟨p, hp⟩ := hadd
  rw [hp]
  exact .add o p o.shares.toNat hact hoRef (by omega) (by omega) (by omega) hoRef hrec

theorem generateExecute_emits (ofRaw : Nat → D) (h : g.Kept) (hroom : IsInt64 (g.orderRef + 1)) :
    Emits g (g.generateExecute rng stocks).2 (parse ofRaw (bytesOf (g.generateExecute rng stocks).1)).forBook := by
  unfold generateExecute
  split
  · rename_i g' hr
    rw [randomActiveOrder_none hr]
    exact generateAddOrder_emits ofRaw h hroom
  · rename_i i g' hr
    obtain ⟨hi, hact, horders, href⟩ := randomActiveOrder_some hr
    have hshares := h.shares i hi hact
    have hrefs := h.refs i hi hact
    have hsize := shareSize_bounds (k := rng.next g'.drawn % 3) (by omega)
    unfold randInt nextTs
    dsimp only
    rw [horders]
    generalize hx : min (g.activeOrders i).shares (SHARE_SIZES.getD (rng.next g'.drawn % 3) 0) = x
    have h0 : 0 < x := by omega
    have hle : x ≤ (g.activeOrders i).shares := by omega
    rw [parse_executeFrame ofRaw (int64_of_room (by omega) (by omega) hroom) (by omega) (by unfold int32Max; omega)]
    refine .execute i x.toNat hi hact (by omega) (by omega) href ?_
    rw [Int.toNat_of_nonneg (by omega)]
    by_cases e : x < (g.activeOrders i).shares
    · rw [if_neg (by omega), hact, decide_eq_true e]
    · rw [if_pos (by omega), decide_eq_false e]

theorem generateCancel_emits (ofRaw : Nat → D) (h : g.Kept) (hroom : IsInt64 (g.orderRef + 1)) :
    Emits g (g.generateCancel rng stocks).2 (parse ofRaw (bytesOf (g.generateCancel rng stocks).1)).forBook := by
  unfold generateCancel
  split
  · rename_i g' hr
    rw [randomActiveOrder_none hr]
    exact generateAddOrder_emits ofRaw h hroom
  · rename_i i g' hr
    obtain ⟨hi, hact, horders, href⟩ := randomActiveOrder_some hr
    have hshares := h.shares i hi hact
    have hrefs := h.refs i hi hact
    rw [horders, parse_cancelFrame ofRaw (int64_of_room (by omega) (by omega) hroom) (by omega) (by unfold int32Max; omega)]
    exact .cancel i _ hi hact (by omega) href rfl

/-- Messages that leave the table alone. -/
theorem generateTrade_emits (ofRaw : Nat → D) :
    Emits g (g.generateTrade rng stocks).2 (parse ofRaw (bytesOf (g.generateTrade rng stocks).1)).forBook := by
  have hmsg : (parse ofRaw (bytesOf (g.generateTrade rng stocks).1)).forBook = .other := parse_tradeFrame ofRaw
  rw [hmsg]
  exact .other rfl rfl

theorem generateSystemEvent_emits (ofRaw : Nat → D) (code : UInt8) :
    Emits g (g.generateSystemEvent code).2 (parse ofRaw (bytesOf (g.generateSystemEvent code).1)).forBook := by
  have hmsg : (parse ofRaw (bytesOf (g.generateSystemEvent code).1)).forBook = .other := parse_systemEventFrame ofRaw
  rw [hmsg]
  exact .other rfl rfl

theorem generateRandomMessage_emits (ofRaw : Nat → D) (h : g.Kept) (hroom : IsInt64 (g.orderRef + 1)) :
    Emits g (g.generateRandomMessage rng stocks).2 (parse ofRaw (bytesOf (g.generateRandomMessage rng stocks).1)).forBook := by
  have hk : ({ g with drawn := g.drawn + 1 } : MarketDataGenerator).Kept := ⟨h.low, h.shares, h.refs⟩
  unfold generateRandomMessage randInt
  dsimp only
  split
  · exact (generateAddOrder_emits ofRaw hk hroom).drawn
  · split
    · exact (generateExecute_emits ofRaw hk hroom).drawn
    · split
      · exact (generateTrade_emits ofRaw).drawn
      · exact (generateCancel_emits ofRaw hk hroom).drawn

end MarketDataGenerator

/-! ## The book -/

section

variable {D : Type} {toTicks : D → Int} {b : ITCHOrderBook} {ref : Int} {r : Resting}

theorem setSideBook_orphans (b : ITCHOrderBook) (side : Char) (l : Table Int Int) : (b.setSideBook side l).orphans = b.orphans := by
  unfold ITCHOrderBook.setSideBook
  split <;> rfl

theorem clamp_of_le {n : Nat} (h : n ≤ r.shares) : ITCHOrderBook.clamp r n = n := by
  unfold ITCHOrderBook.clamp
  split <;> omega

theorem onAdd_effect {side : Char} {price : D} {n : Nat} (h : 0 < n) :
    (b.onAdd toTicks ref side price n).orders = b.orders.insert ref ⟨side, toTicks price, n⟩ ∧
      (b.onAdd toTicks ref side price n).orphans = b.orphans := by
  rw [ITCHOrderBook.onAdd_pos h]
  exact ⟨rfl, setSideBook_orphans ..⟩

theorem reduce_effect {n : Nat} (hr : b.orders.lookup ref = some r) (hn : n ≤ r.shares) :
    (b.reduce ref n).orders = b.reducedOrders ref r n ∧ (b.reduce ref n).orphans = b.orphans := by
  rw [ITCHOrderBook.reduce_some hr, clamp_of_le hn]
  exact ⟨rfl, setSideBook_orphans ..⟩

theorem onExecute_effect {n : Nat} (hr : b.orders.lookup ref = some r) (hn : n ≤ r.shares) :
    (b.onExecute ref n).orders = b.reducedOrders ref r n ∧ (b.onExecute ref n).orphans = b.orphans := by
  unfold ITCHOrderBook.onExecute
  rw [hr]
  exact reduce_effect (b := { b with tape := b.tape.print r (ITCHOrderBook.clamp r n) }) hr hn

theorem onCancel_effect {n : Nat} (hr : b.orders.lookup ref = some r) (hn : n ≤ r.shares) :
    (b.onCancel ref n).orders = b.reducedOrders ref r n ∧ (b.onCancel ref n).orphans = b.orphans := by
  have ho : (b.pull r (ITCHOrderBook.clamp r n)).orphans = b.orphans := by
    unfold ITCHOrderBook.pull
    split <;> rfl
  have h := reduce_effect (b := b.pull r (ITCHOrderBook.clamp r n)) (by simpa using hr) hn
  unfold ITCHOrderBook.reducedOrders at h ⊢
  rw [ITCHOrderBook.pull_orders, ho] at h
  unfold ITCHOrderBook.onCancel
  rw [hr]
  exact h

end

/-- The table and the book say the same. -/
structure Mirrors (g : MarketDataGenerator) (b : ITCHOrderBook) (wasFull : Bool) : Prop where
  kept : g.Kept
  apart : ∀ i < MAX_ACTIVE_ORDERS, ∀ j < MAX_ACTIVE_ORDERS, (g.activeOrders i).active = true → (g.activeOrders j).active = true →
    (g.activeOrders i).orderRef = (g.activeOrders j).orderRef → i = j
  rests : ∀ i < MAX_ACTIVE_ORDERS, (g.activeOrders i).active = true → ∃ r, b.orders.lookup (g.activeOrders i).orderRef = some r ∧
    r.side = (g.activeOrders i).side ∧ (r.shares : Int) = (g.activeOrders i).shares
  used : ∀ ref r, b.orders.lookup ref = some r → ref ≤ g.orderRef
  orphans : b.orphans = 0
  full : g.tableFull = true → wasFull = true
  only : wasFull = false → ∀ ref r, b.orders.lookup ref = some r →
    ∃ i < MAX_ACTIVE_ORDERS, (g.activeOrders i).active = true ∧ (g.activeOrders i).orderRef = ref

namespace Mirrors

variable {D : Type} {toTicks : D → Int} {g g' : MarketDataGenerator} {b b' : ITCHOrderBook} {wasFull : Bool}

/-- A new order, under a reference that no order has had. -/
theorem add (h : Mirrors g b wasFull) {o : ActiveOrder} {n : Nat} {px : Int} (hact : o.active) (href : o.orderRef = g.orderRef + 1)
    (hpos : 0 < n) (hle : n ≤ 500) (hn : o.shares = n) (href' : g'.orderRef = g.orderRef + 1)
    (horders : g'.activeOrders = recorded g.activeOrders o) (hb : b'.orders = b.orders.insert o.orderRef ⟨o.side, px, n⟩)
    (ho : b'.orphans = b.orphans) : Mirrors g' b' (wasFull || g'.tableFull) := by
  have hlow := h.kept.low
  have hother : ∀ ref ≤ g.orderRef, b'.orders.lookup ref = b.orders.lookup ref := by
    intro ref hr
    rw [hb, AList.lookup_insert_ne (by omega)]
  have hused : ∀ ref r, b'.orders.lookup ref = some r → ref = o.orderRef ∨ b.orders.lookup ref = some r := by
    intro ref r hr
    by_cases e : ref = o.orderRef
    · exact .inl e
    · rw [hb, AList.lookup_insert_ne e] at hr
      exact .inr hr
  -- Every active slot holds an order of before, or the new one.
  have hslot : ∀ i < MAX_ACTIVE_ORDERS, (g'.activeOrders i).active →
      (g'.activeOrders i = g.activeOrders i ∧ (g.activeOrders i).active) ∨
        (g'.activeOrders i = o ∧ MarketDataGenerator.freeSlot g.activeOrders MAX_ACTIVE_ORDERS 0 = some i) := by
    intro i hi ha
    rw [horders] at ha ⊢
    unfold recorded at ha ⊢
    cases hk : MarketDataGenerator.freeSlot g.activeOrders MAX_ACTIVE_ORDERS 0 with
    | none =>
      rw [hk] at ha
      exact .inl ⟨rfl, ha⟩
    | some k =>
      rw [hk] at ha
      dsimp only at ha ⊢
      by_cases e : i = k
      · rw [e, update_self]
        exact .inr ⟨rfl, rfl⟩
      · rw [update_of_ne e] at ha ⊢
        exact .inl ⟨rfl, ha⟩
  refine ⟨⟨by omega, ?_, ?_⟩, ?_, ?_, ?_, ho.trans h.orphans, fun hf => by rw [hf, Bool.or_true], ?_⟩
  · intro i hi ha
    rcases hslot i hi ha with ⟨e, ha⟩ | ⟨e, -⟩
    · rw [e]
      exact h.kept.shares i hi ha
    · rw [e]
      omega
  · intro i hi ha
    rcases hslot i hi ha with ⟨e, ha⟩ | ⟨e, -⟩
    · have := h.kept.refs i hi ha
      rw [e]
      omega
    · rw [e]
      omega
  · intro i hi j hj hai haj e
    rcases hslot i hi hai with ⟨ei, hai⟩ | ⟨ei, hfi⟩
    · have hri := h.kept.refs i hi hai
      rcases hslot j hj haj with ⟨ej, haj⟩ | ⟨ej, -⟩
      · rw [ei, ej] at e
        exact h.apart i hi j hj hai haj e
      · rw [ei, ej] at e
        omega
    · rcases hslot j hj haj with ⟨ej, haj⟩ | ⟨-, hfj⟩
      · have hrj := h.kept.refs j hj haj
        rw [ei, ej] at e
        omega
      · exact Option.some.inj (hfi.symm.trans hfj)
  · intro i hi ha
    rcases hslot i hi ha with ⟨e, ha⟩ | ⟨e, -⟩
    · rw [e, hother _ (h.kept.refs i hi ha).2]
      exact h.rests i hi ha
    · rw [e, hb, AList.lookup_insert]
      exact ⟨_, rfl, rfl, hn.symm⟩
  · intro ref r hr
    rcases hused ref r hr with rfl | hr
    · omega
    · have := h.used ref r hr
      omega
  · intro hf ref r hr
    obtain ⟨hf, -⟩ := Bool.or_eq_false_iff.mp hf
    -- The table has room, so that the new order is in it.
    obtain ⟨k, hk⟩ : ∃ k, MarketDataGenerator.freeSlot g.activeOrders MAX_ACTIVE_ORDERS 0 = some k := by
      cases hc : MarketDataGenerator.freeSlot g.activeOrders MAX_ACTIVE_ORDERS 0 with
      | none =>
        have := h.full (by unfold MarketDataGenerator.tableFull; rw [hc]; rfl)
        rw [hf] at this
        cases this
      | some k => exact ⟨k, rfl⟩
    obtain ⟨-, hklt, hkfree⟩ := MarketDataGenerator.freeSlot_some hk
    have hg' : g'.activeOrders = update g.activeOrders k o := by
      rw [horders]
      unfold recorded
      rw [hk]
    rcases hused ref r hr with rfl | hr
    · refine ⟨k, by omega, ?_, ?_⟩ <;> rw [hg', update_self]
      exact hact
    · obtain ⟨i, hi, ha, e⟩ := h.only hf ref r hr
      have hne : i ≠ k := by
        rintro rfl
        rw [ha] at hkfree
        cases hkfree
      refine ⟨i, hi, ?_⟩
      rw [hg', update_of_ne hne]
      exact ⟨ha, e⟩

/-- Shares taken from an active order, all of them or some. -/
theorem take (h : Mirrors g b wasFull) {i n : Nat} {o : ActiveOrder} {r : Resting} (hi : i < MAX_ACTIVE_ORDERS)
    (hact : (g.activeOrders i).active) (hr : b.orders.lookup (g.activeOrders i).orderRef = some r)
    (hside : r.side = (g.activeOrders i).side) (hshares : (r.shares : Int) = (g.activeOrders i).shares) (hn : n ≤ r.shares)
    (horders : g'.activeOrders = update g.activeOrders i o) (horef : o.orderRef = (g.activeOrders i).orderRef)
    (hoside : o.side = (g.activeOrders i).side) (hoact : o.active ↔ n < r.shares)
    (hoshares : o.active → o.shares = r.shares - n) (href : g'.orderRef = g.orderRef)
    (hb : b'.orders = b.reducedOrders (g.activeOrders i).orderRef r n) (ho : b'.orphans = b.orphans) :
    Mirrors g' b' (wasFull || g'.tableFull) := by
  have hlow := h.kept.low
  have hsi := h.kept.shares i hi hact
  have hri := h.kept.refs i hi hact
  have hself : g'.activeOrders i = o := by rw [horders, update_self]
  have hother : ∀ j, j ≠ i → g'.activeOrders j = g.activeOrders j := by
    intro j hj
    rw [horders, update_of_ne hj]
  -- An active slot was active before, under the same reference.
  have hslot : ∀ j, (g'.activeOrders j).active →
      (g.activeOrders j).active = true ∧ (g'.activeOrders j).orderRef = (g.activeOrders j).orderRef := by
    intro j ha
    by_cases e : j = i
    · subst e
      exact ⟨hact, by rw [hself, horef]⟩
    · rw [hother j e] at ha ⊢
      exact ⟨ha, rfl⟩
  have hlookup : ∀ ref, ref ≠ (g.activeOrders i).orderRef → b'.orders.lookup ref = b.orders.lookup ref := by
    intro ref e
    rw [hb]
    unfold ITCHOrderBook.reducedOrders
    split
    · exact AList.lookup_erase_ne e
    · exact AList.lookup_insert_ne e
  refine ⟨⟨by omega, ?_, ?_⟩, ?_, ?_, ?_, ho.trans h.orphans, fun hf => by rw [hf, Bool.or_true], ?_⟩
  · intro j hj ha
    by_cases e : j = i
    · rw [e, hself] at ha ⊢
      have := hoact.mp ha
      have := hoshares ha
      omega
    · rw [hother j e] at ha ⊢
      exact h.kept.shares j hj ha
  · intro j hj ha
    rw [(hslot j ha).2, href]
    exact h.kept.refs j hj (hslot j ha).1
  · intro j hj k hk haj hak e
    rw [(hslot j haj).2, (hslot k hak).2] at e
    exact h.apart j hj k hk (hslot j haj).1 (hslot k hak).1 e
  · intro j hj ha
    by_cases e : j = i
    · rw [e, hself] at ha ⊢
      have hlt := hoact.mp ha
      have hos := hoshares ha
      refine ⟨{ r with shares := r.shares - n }, ?_, hside.trans hoside.symm, ?_⟩
      · rw [hb, horef]
        unfold ITCHOrderBook.reducedOrders
        rw [if_neg (by omega), AList.lookup_insert]
      · dsimp only
        omega
    · have hne : (g.activeOrders j).orderRef ≠ (g.activeOrders i).orderRef := by
        intro e'
        exact e (h.apart j hj i hi (hslot j ha).1 hact e')
      rw [hother j e] at ha ⊢
      rw [hlookup _ hne]
      exact h.rests j hj ha
  · intro ref r' hr'
    rw [href]
    by_cases e : ref = (g.activeOrders i).orderRef
    · omega
    · rw [hlookup ref e] at hr'
      exact h.used ref r' hr'
  · intro hf ref r' hr'
    obtain ⟨hf, -⟩ := Bool.or_eq_false_iff.mp hf
    by_cases e : ref = (g.activeOrders i).orderRef
    · -- The order is still in the book, so that not all of it was taken.
      have hlt : n < r.shares := by
        by_contra hge
        rw [hb, e] at hr'
        unfold ITCHOrderBook.reducedOrders at hr'
        rw [if_pos (by omega), AList.lookup_erase] at hr'
        cases hr'
      exact ⟨i, hi, by rw [hself]; exact hoact.mpr hlt, by rw [hself, horef, e]⟩
    · rw [hlookup ref e] at hr'
      obtain ⟨j, hj, ha, ej⟩ := h.only hf ref r' hr'
      have hne : j ≠ i := by
        intro hji
        exact e (by rw [← ej, hji])
      exact ⟨j, hj, by rw [hother j hne]; exact ha, by rw [hother j hne]; exact ej⟩

theorem step (h : Mirrors g b wasFull) {m : ParsedMessage D} (hm : Emits g g' m) :
    Mirrors g' (b.apply toTicks m) (wasFull || g'.tableFull) := by
  cases hm with
  | add o price n hact href hpos hle hn href' horders =>
    exact h.add hact href hpos hle hn href' horders (onAdd_effect hpos).1 (onAdd_effect hpos).2
  | execute i n hi hact hpos hle href horders =>
    obtain ⟨r, hr, hside, hshares⟩ := h.rests i hi hact
    have hn : n ≤ r.shares := by omega
    refine h.take hi hact hr hside hshares hn horders rfl rfl ?_ ?_ href (onExecute_effect hr hn).1 (onExecute_effect hr hn).2
    · rw [decide_eq_true_iff]
      omega
    · intro _
      dsimp only
      omega
  | cancel i n hi hact hn href horders =>
    obtain ⟨r, hr, hside, hshares⟩ := h.rests i hi hact
    have hn' : n = r.shares := by omega
    refine h.take hi hact hr hside hshares (by omega) horders rfl rfl ?_ ?_ href (onCancel_effect hr (by omega)).1
      (onCancel_effect hr (by omega)).2
    · constructor
      · intro e
        cases e
      · intro e
        omega
    · intro e
      cases e
  | other href horders =>
    have hfull : g'.tableFull = g.tableFull := by
      unfold MarketDataGenerator.tableFull
      rw [horders]
    refine ⟨⟨href ▸ h.kept.low, ?_, ?_⟩, ?_, ?_, ?_, h.orphans, fun hf => by rw [hf, Bool.or_true], ?_⟩
    · rw [horders]
      exact h.kept.shares
    · rw [horders, href]
      exact h.kept.refs
    · rw [horders]
      exact h.apart
    · rw [horders]
      exact h.rests
    · rw [href]
      exact h.used
    · intro hf
      rw [horders]
      exact h.only (Bool.or_eq_false_iff.mp hf).1

end Mirrors

/-! ## The feed -/

/-- The calls that make a feed. -/
inductive Call where
  | randomMessage
  | systemEvent (eventCode : UInt8)
  deriving DecidableEq, Repr

def MarketDataGenerator.call (rng : Rng) (stocks : List StockInfo) (g : MarketDataGenerator) :
    Call → GeneratedMessage × MarketDataGenerator
  | .randomMessage => g.generateRandomMessage rng stocks
  | .systemEvent eventCode => g.generateSystemEvent eventCode

/-- A generator, the book that its messages were applied to, and whether its table has ever been full. -/
structure Feed where
  generator : MarketDataGenerator := {}
  book : ITCHOrderBook := {}
  wasFull : Bool := false

namespace Feed

variable {D : Type} (ofRaw : Nat → D) (toTicks : D → Int) (rng : Rng) (stocks : List StockInfo)

def call (s : Feed) (c : Call) : Feed :=
  let (m, g) := s.generator.call rng stocks c
  { generator := g
    book := s.book.apply toTicks (parse ofRaw (bytesOf m)).forBook
    wasFull := s.wasFull || g.tableFull }

def run (calls : List Call) : Feed := calls.foldl (call ofRaw toTicks rng stocks) {}

end Feed

section

variable {D : Type} {ofRaw : Nat → D} {toTicks : D → Int} {rng : Rng} {stocks : List StockInfo} {s : Feed}

theorem Emits.orderRef_le {g g' : MarketDataGenerator} {m : ParsedMessage D} (h : Emits g g' m) : g'.orderRef ≤ g.orderRef + 1 := by
  cases h <;> omega

theorem call_emits (ofRaw : Nat → D) (rng : Rng) (stocks : List StockInfo) (c : Call) {g : MarketDataGenerator}
    (h : g.Kept) (hroom : IsInt64 (g.orderRef + 1)) :
    Emits g (g.call rng stocks c).2 (parse ofRaw (bytesOf (g.call rng stocks c).1)).forBook := by
  cases c with
  | randomMessage => exact MarketDataGenerator.generateRandomMessage_emits ofRaw h hroom
  | systemEvent eventCode => exact MarketDataGenerator.generateSystemEvent_emits ofRaw eventCode

theorem Mirrors.call (h : Mirrors s.generator s.book s.wasFull) (hroom : IsInt64 (s.generator.orderRef + 1)) (c : Call) :
    Mirrors (s.call ofRaw toTicks rng stocks c).generator (s.call ofRaw toTicks rng stocks c).book
        (s.call ofRaw toTicks rng stocks c).wasFull ∧
      (s.call ofRaw toTicks rng stocks c).generator.orderRef ≤ s.generator.orderRef + 1 := by
  have he := call_emits ofRaw rng stocks c h.kept hroom
  exact ⟨h.step he, he.orderRef_le⟩

/-- The table starts empty. -/
theorem Mirrors.init : Mirrors {} {} false where
  kept := ⟨by decide, fun _ _ h => (nomatch h), fun _ _ h => (nomatch h)⟩
  apart := fun _ _ _ _ h => (nomatch h)
  rests := fun _ _ h => (nomatch h)
  used := fun _ _ h => (nomatch h)
  orphans := rfl
  full := by
    intro h
    have hfree : (({} : MarketDataGenerator).activeOrders 0).active := by
      exact MarketDataGenerator.freeSlot_none (Option.isNone_iff_eq_none.mp h) 0 (Nat.le_refl _) (by decide)
    cases hfree
  only := fun _ _ _ h => (nomatch h)

/-- The counter of the references after so many calls. -/
theorem Mirrors.calls (h : Mirrors s.generator s.book s.wasFull) (calls : List Call)
    (hroom : s.generator.orderRef + calls.length ≤ 9223372036854775807) :
    let t := calls.foldl (Feed.call ofRaw toTicks rng stocks) s
    Mirrors t.generator t.book t.wasFull := by
  induction calls generalizing s with
  | nil => exact h
  | cons c rest ih =>
    have hlow := h.kept.low
    simp only [length_cons, Nat.cast_add, Nat.cast_one] at hroom
    have hcall : Mirrors (s.call ofRaw toTicks rng stocks c).generator (s.call ofRaw toTicks rng stocks c).book
        (s.call ofRaw toTicks rng stocks c).wasFull ∧
        (s.call ofRaw toTicks rng stocks c).generator.orderRef ≤ s.generator.orderRef + 1 := h.call ⟨by omega, by omega⟩ c
    obtain ⟨hm, hle⟩ := hcall
    exact ih hm (by omega)

end

/-- For any stream of random numbers and prices, any universe of symbols and any calls that the 64-bit references last for: no
message misses its order, every active order of the table rests in the book as the table has it, and nothing else rests there
until the table has been full. -/
theorem feed_consistent {D : Type} (ofRaw : Nat → D) (toTicks : D → Int) (rng : Rng) (stocks : List StockInfo) (calls : List Call)
    (hroom : 1000 + calls.length ≤ 9223372036854775807) :
    let s := Feed.run ofRaw toTicks rng stocks calls
    s.book.orphans = 0 ∧
      (∀ i < MAX_ACTIVE_ORDERS, (s.generator.activeOrders i).active = true →
        ∃ r, s.book.orders.lookup (s.generator.activeOrders i).orderRef = some r ∧ r.side = (s.generator.activeOrders i).side ∧
          (r.shares : Int) = (s.generator.activeOrders i).shares) ∧
      (s.wasFull = false → ∀ ref r, s.book.orders.lookup ref = some r →
        ∃ i < MAX_ACTIVE_ORDERS, (s.generator.activeOrders i).active = true ∧ (s.generator.activeOrders i).orderRef = ref) := by
  have h : Mirrors (Feed.run ofRaw toTicks rng stocks calls).generator (Feed.run ofRaw toTicks rng stocks calls).book
      (Feed.run ofRaw toTicks rng stocks calls).wasFull :=
    Mirrors.calls (s := {}) Mirrors.init calls (by show (1000 : Int) + calls.length ≤ _; omega)
  exact ⟨h.orphans, h.rests, h.only⟩

/-- An add of 25 shares, an execution of 10 of them and a system event. -/
def sampleRng : Rng where
  next n := [0, 0, 0, 0, 1, 2147483648, 0, 0, 0].getD n 0
  price _ := 1750000

def sampleStocks : List StockInfo := [⟨[65, 65, 80, 76], by decide⟩]

theorem feed_consistent_sample :
    let s := Feed.run id Int.ofNat sampleRng sampleStocks [.randomMessage, .randomMessage, .systemEvent 81]
    s.book.orphans = 0 ∧ (s.generator.activeOrders 0).active = true ∧ (s.generator.activeOrders 0).shares = 15 ∧
      ∃ r, s.book.orders.lookup 1001 = some r ∧ r.side = 'B' ∧ r.shares = 15 := by
  obtain ⟨horphans, hrests, -⟩ := feed_consistent id Int.ofNat sampleRng sampleStocks
    [.randomMessage, .randomMessage, .systemEvent 81] (by decide)
  obtain ⟨r, hr, hside, hshares⟩ := hrests 0 (by decide) (by decide +kernel)
  exact ⟨horphans, by decide +kernel, by decide +kernel, r, hr, hside, Int.ofNat_inj.mp hshares⟩

end HftLab.Simulator
