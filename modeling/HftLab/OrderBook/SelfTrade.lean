/-
  HftLab.OrderBook.SelfTrade — self-trade prevention.

  The trades a `submit` records are the executions it reports (`Prints`). Under CANCEL_NEWEST,
  CANCEL_OLDEST and CANCEL_BOTH none of them is between orders of one trading entity;
  DECREMENT_AND_CXL has no branch in `match_at_level` and lets them through.
-/

import HftLab.OrderBook.Reachable

namespace HftLab.OrderBook

open Lib List

/-! ## Trades and reports -/

/-- What a trade says of an execution: the two ids, the price, the quantity, the side of the taker. -/
def Trade.print (t : Trade) : Nat × Nat × Int × Int × Side :=
  (t.makerOrderId, t.takerOrderId, t.priceTicks, t.qty, t.takerSide)

def Report.print : Report → Option (Nat × Nat × Int × Int × Side)
  | .fill m t q => some (m.id, t.id, m.priceTicks, q, t.side)
  | _ => none

/-- The reports of the call that took `b` to `b'`, newest first. -/
def Book.since (b b' : Book) : List Report := b'.log.take (b'.log.length - b.log.length)

def Book.newTrades (b b' : Book) : List Trade := b'.tape.trades.drop b.tape.trades.length

/-- An execution between two orders of one trading entity. -/
def Report.selfTrade (b : Book) : Report → Bool
  | .fill m t _ => b.sameTradingEntity m.clientId t.clientId
  | _ => false

/-- Every trade recorded on the way from `b` to `b'` is an execution of two entities. -/
structure SelfTradeFree (b b' : Book) : Prop where
  recorded : (b.newTrades b').map Trade.print = (b.since b').reverse.filterMap Report.print
  apart : ∀ e ∈ b.since b', e.selfTrade b = false

/-- What an act leaves behind: `l` is reported, the executions among it are printed, and the
    self-trade rules are the same. -/
structure Prints (b b' : Book) (l : List Report) : Prop where
  log : b'.log = l ++ b.log
  trades : b'.tape.trades.map Trade.print = b.tape.trades.map Trade.print ++ l.reverse.filterMap Report.print
  stpPolicy : b'.gates.stpPolicy = b.gates.stpPolicy
  clientToFirm : b'.gates.clientToFirm = b.gates.clientToFirm

section

variable {V : Env} {b b' b'' : Book} {k : Kind} {l l' : List Report} {e : Report} {i : Nat} {r : Request}

theorem Prints.trans (h : Prints b b' l) (h' : Prints b' b'' l') : Prints b b'' (l' ++ l) := by
  refine ⟨?_, ?_, h'.stpPolicy.trans h.stpPolicy, h'.clientToFirm.trans h.clientToFirm⟩
  · rw [h'.log, h.log, append_assoc]
  · rw [h'.trades, h.trades, reverse_append, filterMap_append, append_assoc]

theorem Prints.since (h : Prints b b' l) : b.since b' = l := by
  unfold Book.since
  rw [h.log, length_append, Nat.add_sub_cancel, take_left]

theorem Prints.newTrades (h : Prints b b' l) :
    (b.newTrades b').map Trade.print = l.reverse.filterMap Report.print := by
  unfold Book.newTrades
  rw [map_drop, h.trades, ← length_map Trade.print, drop_left]

theorem Prints.sameTradingEntity (h : Prints b b' l) (x y : Nat) : b'.sameTradingEntity x y = b.sameTradingEntity x y := by
  unfold Book.sameTradingEntity
  rw [h.clientToFirm]

/-- A silent act: nothing is reported or printed. -/
theorem Prints.silent (hl : b'.log = b.log) (ht : b'.tape.trades = b.tape.trades)
    (hp : b'.gates.stpPolicy = b.gates.stpPolicy) (hf : b'.gates.clientToFirm = b.gates.clientToFirm) : Prints b b' [] :=
  ⟨hl, by rw [ht]; simp, hp, hf⟩

/-- An act that reports something other than an execution. -/
theorem Prints.report (he : e.print = none) (hl : b'.log = e :: b.log) (ht : b'.tape.trades = b.tape.trades)
    (hp : b'.gates.stpPolicy = b.gates.stpPolicy) (hf : b'.gates.clientToFirm = b.gates.clientToFirm) : Prints b b' [e] :=
  ⟨hl, by rw [ht]; simp [he], hp, hf⟩

theorem executed_prints {p q : Int} {t ts : Nat} : Prints b (b.executed V p t ts i q) [.fill (b.order i) (b.order t) q] := by
  have h : ∀ c : Book, Prints c (c.settleMaker p t i q) [] := by
    intro c
    unfold Book.settleMaker
    dsimp only
    split
    · exact Prints.silent rfl rfl rfl rfl
    · split
      · exact Prints.silent rfl rfl rfl rfl
      · exact Prints.silent rfl rfl rfl rfl
  have h0 : Prints b (b.fillMaker V p t i q ts) [.fill (b.order i) (b.order t) q] :=
    ⟨rfl, map_append, rfl, rfl⟩
  exact h0.trans (h _)

theorem cancelInternal_prints (ha : (b.order i).isActive) : Prints b (b.cancelInternal V i true) [.cancel (b.order i)] := by
  obtain ⟨hl, -, -, hg, ht⟩ := Book.cancelInternal_rest true ha
  exact Prints.report rfl hl ht (by rw [hg]) (by rw [hg])

theorem restOrder_prints : Prints b (b.restOrder i) [.rest (b.order i).atRest] := by
  unfold Book.restOrder
  dsimp only
  split
  · exact Prints.report rfl rfl rfl rfl rfl
  · exact Prints.report rfl rfl (Book.pushDelta_trades ..) rfl rfl

theorem accept_prints (h : b.accept V r = some (i, b')) : ∃ o, Prints b b' [.accept o] := by
  unfold Book.accept at h
  dsimp only at h
  split at h
  · cases h
  · cases h
    exact ⟨_, Prints.report rfl rfl rfl rfl rfl⟩

theorem cancelPendingStop_prints : ∃ l, Prints b (b.cancelPendingStop i).2 l ∧ ∀ e ∈ l, e.print = none := by
  unfold Book.cancelPendingStop
  split
  · exact ⟨[], Prints.silent rfl rfl rfl rfl, by simp⟩
  · exact ⟨[.cancel (b.order i)], Prints.report rfl rfl rfl rfl rfl, by simp [Report.print]⟩

theorem Report.not_selfTrade (h : e.print = none) : e.selfTrade b = false := by
  cases e <;> first | rfl | cases h

/-- An act of `submit` prints its executions; with the maker of the taker's entity only if the policy
    has no branch for it. -/
theorem Act.prints (h : Act V k b b') (hk : submitKinds True k) (hw : Wf V b) :
    ∃ l, Prints b b' l ∧ (b.gates.stpPolicy ≠ .none → b.gates.stpPolicy ≠ .decrementAndCxl →
      ∀ e ∈ l, e.selfTrade b = false) := by
  have quiet : ∀ {e}, e.print = none → Prints b b' [e] → ∃ l, Prints b b' l ∧
      (b.gates.stpPolicy ≠ .none → b.gates.stpPolicy ≠ .decrementAndCxl → ∀ e ∈ l, e.selfTrade b = false) := by
    intro e he hp
    exact ⟨[e], hp, fun _ _ e' h' => by rw [mem_singleton.mp h']; exact Report.not_selfTrade he⟩
  cases h with
  | aux _ hf _ _ => exact ⟨[], Prints.silent hf.log hf.trades hf.stpPolicy hf.clientToFirm, by simp⟩
  | stpAbort => exact quiet rfl (Prints.report rfl rfl rfl rfl rfl)
  | stpCancel => exact quiet rfl (Prints.report rfl rfl rfl rfl rfl)
  | accept r i _ _ ha =>
    obtain ⟨o, ho⟩ := accept_prints ha
    exact quiet rfl ho
  | wait _ _ _ _ h =>
    exact ⟨[], Prints.silent h.frozen.log h.frozen.trades h.frozen.stpPolicy h.frozen.clientToFirm, by simp⟩
  | exec p t ts i qty hm =>
    refine ⟨_, executed_prints, fun hn hd e he => ?_⟩
    rw [mem_singleton.mp he]
    exact (hm.stp.resolve_left hn).resolve_left hd
  | cancel p i hi => exact quiet rfl (cancelInternal_prints (hw.resting hi).active)
  | unwait i _ =>
    obtain ⟨l, hl, hn⟩ := cancelPendingStop_prints
    exact ⟨l, hl, fun _ _ e he => Report.not_selfTrade (hn e he)⟩
  | finishFilled => exact quiet rfl (Prints.report rfl rfl rfl rfl rfl)
  | finishIoc => exact quiet rfl (Prints.report rfl rfl rfl rfl rfl)
  | rest => exact quiet rfl restOrder_prints
  | oco => exact ⟨[], Prints.silent rfl rfl rfl rfl, by simp⟩
  | config | peg | replace | reduce | reduceStop | release | reprice | expire | auction | touch | bracket | clear => cases hk

/-- A whole `submit` prints its executions; none of one entity, whatever the firms are, unless the
    policy is NONE or DECREMENT_AND_CXL. -/
theorem Acts.prints (h : Acts V (submitKinds True) b b') (hw : Wf V b) :
    ∃ l, Prints b b' l ∧ (b.gates.stpPolicy ≠ .none → b.gates.stpPolicy ≠ .decrementAndCxl →
      ∀ e ∈ l, e.selfTrade b = false) := by
  refine (h.keeps (I := fun c => Wf V c ∧ ∃ l, Prints b c l ∧
    (b.gates.stpPolicy ≠ .none → b.gates.stpPolicy ≠ .decrementAndCxl → ∀ e ∈ l, e.selfTrade b = false))
    ⟨hw, [], Prints.silent rfl rfl rfl rfl, by simp⟩ ?_).2
  rintro k c c' hk ha ⟨hwc, l, hl, hfree⟩
  obtain ⟨l', hl', hfree'⟩ := ha.prints hk hwc
  refine ⟨ha.wf hwc, l' ++ l, hl.trans hl', fun hn hd e he => ?_⟩
  rcases mem_append.mp he with he | he
  · have hnew := hfree' (hl.stpPolicy ▸ hn) (hl.stpPolicy ▸ hd) e he
    have hsame : e.selfTrade c = e.selfTrade b := by
      cases e with
      | fill m t q => exact hl.sameTradingEntity m.clientId t.clientId
      | _ => rfl
    rw [← hsame]
    exact hnew
  · exact hfree hn hd e he

theorem submit_prints {n : Nat} {x : Nat × RejectReason} (hw : Wf V b) (h : Book.submit V n r b = some (x, b')) :
    ∃ l, Prints b b' l ∧ (b.gates.stpPolicy ≠ .none → b.gates.stpPolicy ≠ .decrementAndCxl →
      ∀ e ∈ l, e.selfTrade b = false) :=
  (submit_does n r b x b' hw (.inl trivial) h).acts.prints hw

end

/-! ## The policies -/

/-- Under `P` no submitted order ever trades with its own entity. -/
def PreventsSelfTrade (P : SelfTradePrevention) : Prop :=
  ∀ (V : Env) (b b' : Book) (r : Request) (x : Outcome), Book.Reach V (fun _ _ _ => True) b → b.gates.stpPolicy = P →
    Book.Step V b (.submit r) x b' → SelfTradeFree b b'

theorem preventsSelfTrade_of {P : SelfTradePrevention} (hn : P ≠ .none) (hd : P ≠ .decrementAndCxl) :
    PreventsSelfTrade P := by
  intro V b b' r x hr hp hs
  obtain ⟨n, hn'⟩ := hs
  obtain ⟨y, hsub⟩ := Book.returned hn' fun _ => rfl
  obtain ⟨l, hl, hfree⟩ := submit_prints (Reach.wf hr).1 hsub
  refine ⟨?_, ?_⟩
  · rw [hl.newTrades, hl.since]
  · rw [hl.since]
    exact hfree (hp ▸ hn) (hp ▸ hd)

/-- The resting order of client 1 under DECREMENT_AND_CXL, and an order of the same client that
    crosses it. -/
def washOps : List Op :=
  [.setStpPolicy .decrementAndCxl, .submit { side := .sell, priceTicks := 3, qty := 5, clientId := 1 }]

def washOrder : Request := { side := .buy, priceTicks := 3, qty := 5, clientId := 1 }

/-- The order trades with the one of its own client. -/
theorem wash_run : (Book.runIf smallEnv 20 (fun _ _ _ => true) washOps (fresh smallEnv)).any (fun b =>
    (Book.exec smallEnv 20 (.submit washOrder) b).any fun y =>
      decide (b.gates.stpPolicy = .decrementAndCxl) && (b.since y.2).any (Report.selfTrade b)) := by
  decide +kernel

theorem wash_trades {b b' : Book} (h : (b.since b').any (Report.selfTrade b)) : ¬ SelfTradeFree b b' := by
  obtain ⟨e, he, hself⟩ := any_eq_true.mp h
  intro hfree
  rw [hfree.apart e he] at hself
  cases hself

/-- Of the policies other than NONE, exactly those with a branch in `match_at_level` prevent self-trades. -/
theorem self_trade_prevented_iff (P : SelfTradePrevention) (hP : P ≠ .none) :
    PreventsSelfTrade P ↔ P ≠ .decrementAndCxl := by
  constructor
  · rintro h rfl
    obtain ⟨b, x, b', -, hr, hs, hc⟩ := Reach.ofRunThen
      (f := fun b _ b' => decide (b.gates.stpPolicy = .decrementAndCxl) && (b.since b').any (Report.selfTrade b))
      wash_run fun _ _ _ _ => trivial
    obtain ⟨hp, hany⟩ := Bool.and_eq_true_iff.mp hc
    exact wash_trades hany (h _ _ _ _ _ hr (of_decide_eq_true hp) hs)
  · exact preventsSelfTrade_of hP

theorem self_trade_prevented_oldest :
    SelfTradePrevention.cancelOldest ≠ .none ∧ PreventsSelfTrade .cancelOldest :=
  ⟨by decide, (self_trade_prevented_iff .cancelOldest (by decide)).mpr (by decide)⟩

theorem decrement_self_trades : ∃ b x b',
    Book.runIf smallEnv 20 (fun _ _ _ => true) washOps (fresh smallEnv) = some b ∧
    b.gates.stpPolicy = .decrementAndCxl ∧ Book.Step smallEnv b (.submit washOrder) x b' ∧
    ¬ SelfTradeFree b b' := by
  obtain ⟨b, x, b', hb, -, hs, hc⟩ := Reach.ofRunThen
    (f := fun b _ b' => decide (b.gates.stpPolicy = .decrementAndCxl) && (b.since b').any (Report.selfTrade b))
    wash_run fun _ _ _ _ => trivial
  obtain ⟨hp, hany⟩ := Bool.and_eq_true_iff.mp hc
  exact ⟨b, x, b', hb, of_decide_eq_true hp, hs, wash_trades hany⟩

end HftLab.OrderBook
