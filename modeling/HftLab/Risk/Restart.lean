/-
  HftLab.Risk.Restart — what a halt is worth across a restart.

  The file is written when the kill switch is latched or deactivated, and at no other time. A switch that is on is on in
  the file (`Kept`), so a restart keeps it unless the file was removed. A daily loss or a drawdown beyond its limit is
  latched by the first order that gets as far as the breakers; until then a restart forgets it, but for a P&L that the
  file happens to hold. The peak is not in the file, so a drawdown is forgotten as well once the switch is deactivated.
  `restart_keeps_halt_iff`: these are all the cases.
-/

import HftLab.Risk.Persistence
import HftLab.Risk.RateLimit

namespace HftLab.Risk

open Lib
open HftLab.Oms (Side symToKey)

/-- The reasons of the kill switch, of the daily loss and of the drawdown. -/
def haltReasons : List String := ["Kill switch active", "Circuit breaker: daily loss limit", "Drawdown limit exceeded"]

def RiskCheckResult.halts (res : RiskCheckResult) : Prop := res.action = .reject ∧ res.reason ∈ haltReasons

instance (res : RiskCheckResult) : Decidable res.halts := inferInstanceAs (Decidable (_ ∧ _))

/-! ## The two kinds of rejection -/

section

variable {D : Type} {F : Doubles D} {r : RiskManager D} {key : Nat} {side : Side} {price : D} {quantity now : Int}
  {reason : String}

theorem orderBreach_kill (h : r.killSwitchActive) :
    r.orderBreach F key side price quantity = some "Kill switch active" := by
  unfold RiskManager.orderBreach
  rw [h]
  rfl

theorem ite_reason {c : Prop} [Decidable c] {first : String} {rest : Option String} (hfirst : first ∉ haltReasons)
    (hrest : ∀ reason, rest = some reason → reason ∉ haltReasons) :
    ∀ reason, (if c then some first else rest) = some reason → reason ∉ haltReasons := by
  intro reason h
  by_cases hc : c
  · rw [if_pos hc] at h
    cases h
    exact hfirst
  · rw [if_neg hc] at h
    exact hrest reason h

/-- The other checks give other reasons. -/
theorem orderBreach_reason (h : r.killSwitchActive = false) :
    ∀ reason, r.orderBreach F key side price quantity = some reason → reason ∉ haltReasons := by
  unfold RiskManager.orderBreach
  rw [h, if_neg Bool.false_ne_true]
  repeat' refine ite_reason (by decide) ?_
  intro reason hnone
  cases hnone

theorem breakers_reason (h : (r.checkPnlBreakers F).1 = some reason) : reason ∈ haltReasons := by
  unfold RiskManager.checkPnlBreakers at h
  split at h
  · cases h
    decide
  · split at h
    · cases h
      decide
    · cases h

/-- An order meets a halt if the switch is on, or if it gets to the breakers and one fails. -/
theorem checkOrder_halts_iff (symbol : List UInt8) : (r.checkOrder F symbol side price quantity now).1.halts ↔
    r.killSwitchActive = true ∨ r.orderBreach F (symToKey symbol) side price quantity = none ∧
      (r.checkPnlBreakers F).1.isSome = true := by
  rcases checkOrder_cases F r symbol side price quantity now with ⟨reason, hb, h⟩ | ⟨hb, reason, k, hp, h⟩ | ⟨hb, hp, h⟩
  · rw [h, hb]
    cases hkill : r.killSwitchActive with
    | true =>
      have hreason := hb.symm.trans (orderBreach_kill hkill)
      cases hreason
      exact iff_of_true ⟨rfl, show "Kill switch active" ∈ haltReasons by decide⟩ (.inl rfl)
    | false =>
      refine iff_of_false (fun hc => orderBreach_reason hkill reason hb hc.2) ?_
      simp
  · rw [h, hb, hp]
    exact iff_of_true ⟨rfl, breakers_reason (congrArg Prod.fst hp)⟩ (.inr ⟨rfl, rfl⟩)
  · have hkill : r.killSwitchActive ≠ true := by
      intro hc
      rw [orderBreach_kill hc] at hb
      cases hb
    rw [h, hp]
    refine iff_of_false ?_ (by simp [hkill])
    split
    · exact fun hc => by cases hc.1
    · exact fun hc => absurd hc.2 (show "Rate limit exceeded" ∉ haltReasons by decide)

theorem checkOrder_rejects_iff (symbol : List UInt8) : (r.checkOrder F symbol side price quantity now).1.action = .reject ↔
    r.orderBreach F (symToKey symbol) side price quantity ≠ none ∨ (r.checkPnlBreakers F).1.isSome ∨
      (r.checkRateLimit now).1 = false := by
  rcases checkOrder_cases F r symbol side price quantity now with ⟨reason, hb, h⟩ | ⟨hb, reason, k, hp, h⟩ | ⟨hb, hp, h⟩
  · rw [h, hb]
    exact iff_of_true rfl (.inl (by simp))
  · rw [h, hp]
    exact iff_of_true rfl (.inr (.inl rfl))
  · rw [h, hb, hp]
    cases (r.checkRateLimit now).1
    · exact iff_of_true rfl (.inr (.inr rfl))
    · exact iff_of_false (by simp) (by simp)

end

/-! ## What a run keeps -/

namespace Persisting

/-- The file tells whether the switch is on. -/
def Kept (p : Persisting) : Prop := ∀ f, p.file = some f → f.active = p.risk.killSwitchActive

variable {p : Persisting} {limits : RiskLimits ℚ} {calls : List Call}

theorem persistState_kept (p : Persisting) : p.persistState.Kept := by
  intro f hf
  cases hf
  rfl

/-- A call that leaves the file and the switch alone. -/
theorem Kept.same {risk : RiskManager ℚ} (h : p.Kept) (hkill : risk.killSwitchActive = p.risk.killSwitchActive) :
    Kept { p with risk } := fun f hf => (h f hf).trans hkill.symm

theorem checkOrder_kept (h : p.Kept) (symbol : List UInt8) (side : Side) (price : ℚ) (quantity now : Int) :
    (p.checkOrder symbol side price quantity now).2.Kept := by
  unfold checkOrder
  dsimp only
  split
  · exact persistState_kept _
  · rename_i hquiet
    refine h.same ?_
    rcases checkOrder_cases exactDoubles p.risk symbol side price quantity now with
      ⟨reason, hb, hc⟩ | ⟨hb, reason, k, hp, hc⟩ | ⟨hb, hp, hc⟩
    · rw [hc]
      rfl
    · rw [hb, hp] at hquiet
      exact absurd rfl hquiet
    · rw [hc]
      unfold RiskManager.checkRateLimit
      dsimp only
      split <;> split <;> rfl

/-- A P&L update that turns the switch on writes the file. -/
theorem updatePnl_kill (r : RiskManager ℚ) (x : ℚ) :
    (r.updatePnl exactDoubles x).killSwitchActive = r.killSwitchActive ∨
      x < 0 ∧ 0 < (r.updatePnl exactDoubles x).limits.maxConsecutiveLosses ∧
        (r.updatePnl exactDoubles x).limits.maxConsecutiveLosses ≤ (r.updatePnl exactDoubles x).consecLosses := by
  unfold RiskManager.updatePnl
  dsimp only
  split
  · rename_i hloss
    split
    · rename_i hstreak
      exact .inr ⟨by simpa [exactDoubles] using hloss, hstreak⟩
    · exact .inl rfl
  · split
    · exact .inl rfl
    · exact .inl rfl

theorem updatePnl_kept (h : p.Kept) (x : ℚ) : (p.updatePnl x).Kept := by
  unfold updatePnl
  dsimp only
  split
  · exact persistState_kept _
  · rename_i hquiet
    exact h.same ((updatePnl_kill p.risk x).resolve_right hquiet)

theorem exec_kept (h : p.Kept) (call : Call) : (p.exec call).Kept := by
  cases call with
  | checkOrder symbol side price quantity now => exact checkOrder_kept h symbol side price quantity now
  | updatePnl x => exact updatePnl_kept h x
  | updateReferencePrice symbol price =>
    refine h.same ?_
    unfold RiskManager.updateReferencePrice
    split
    · rfl
    · rfl
  | addTradedNotional notional =>
    refine h.same ?_
    unfold RiskManager.addTradedNotional
    split
    · rfl
    · rfl
  | rateLimitHeadroom nowNs =>
    refine h.same ?_
    unfold RiskManager.rateLimitHeadroom
    split
    · rfl
    · rfl
  | activateKillSwitch => exact persistState_kept _
  | deactivateKillSwitch => exact persistState_kept _
  | loadPersistedState =>
    unfold exec loadPersistedState
    cases hfile : p.file with
    | none => exact h
    | some f =>
      intro f' hf'
      cases hf'
      rfl
  | clearPersistedState =>
    intro f hf
    cases hf
  | _ => exact h.same rfl

theorem run_kept (h : p.Kept) : (p.run calls).Kept := by
  induction calls generalizing p with
  | nil => exact h
  | cons call calls ih => exact ih (exec_kept h call)

theorem start_kept (limits : RiskLimits ℚ) : (start limits).Kept := fun f hf => by cases hf

/-! ## The new instance -/

/-- The P&L that a new instance starts from. -/
def savedPnl (p : Persisting) : ℚ := (p.file.map (·.pnl)).getD 0

theorem restart_eq (p : Persisting) : p.restart =
    { fresh exactDoubles p.risk.limits with
      killSwitchActive := (p.file.map (·.active)).getD false
      dailyPnl := p.savedPnl } := by
  unfold restart loadPersistedState savedPnl
  cases p.file with
  | none => rfl
  | some f => rfl

/-- Of the breakers a new instance has the daily loss only: its peak is 0. -/
theorem restart_breakers (p : Persisting) : (p.restart.checkPnlBreakers exactDoubles).1.isSome ↔
    p.savedPnl < -p.risk.limits.maxDailyLoss := by
  rw [restart_eq]
  unfold RiskManager.checkPnlBreakers
  by_cases hloss : p.savedPnl < -p.risk.limits.maxDailyLoss
  · simp [exactDoubles, fresh, hloss]
  · simp [exactDoubles, fresh, hloss]

/-- Its ring is empty, so only a limit that is 0 or less refuses. -/
theorem restart_rate (p : Persisting) (now : Int) : (p.restart.checkRateLimit now).1 = false ↔
    p.risk.limits.maxOrdersPerSecond ≤ 0 := by
  have hcount := (TimestampRing.new_holds.evict (i64 (now - 1000000000))).count
  rw [restart_eq]
  unfold RiskManager.checkRateLimit
  dsimp only [fresh]
  rw [hcount]
  by_cases hoff : p.risk.limits.maxOrdersPerSecond ≤ 0
  · simp [hoff]
  · simp [hoff]

/-! ## The halt and the restart -/

/-- A new instance rejects every order that this one rejects for a halt. -/
def RestartKeepsHalt (p : Persisting) : Prop := ∀ symbol side price quantity now,
  (p.checkOrder symbol side price quantity now).1.halts →
    ∀ later, (p.restart.checkOrder exactDoubles symbol side price quantity later).1.action = .reject

/-- The switch is on, or a P&L breaker fails. -/
def Halted (p : Persisting) : Prop :=
  p.risk.killSwitchActive = true ∨ (p.risk.checkPnlBreakers exactDoubles).1.isSome = true

instance (p : Persisting) : Decidable p.Halted := inferInstanceAs (Decidable (_ ∨ _))

/-- The switch is on in the file, or the P&L of the file is beyond the daily loss. -/
def Saved (p : Persisting) : Prop :=
  p.risk.killSwitchActive = true ∧ p.file.isSome = true ∨ p.savedPnl < -p.risk.limits.maxDailyLoss

instance (p : Persisting) : Decidable p.Saved := inferInstanceAs (Decidable (_ ∨ _))

/-- The checks that are not about a halt let the order pass, here and in a new instance. -/
def LetsPass (p : Persisting) (symbol : List UInt8) (side : Side) (price : ℚ) (quantity : Int) : Prop :=
  (p.risk.killSwitchActive = true ∨ p.risk.orderBreach exactDoubles (symToKey symbol) side price quantity = none) ∧
    (fresh exactDoubles p.risk.limits).orderBreach exactDoubles (symToKey symbol) side price quantity = none ∧
    0 < p.risk.limits.maxOrdersPerSecond

theorem keepsHalt_of_saved (hkept : p.Kept) (h : p.Saved) : p.RestartKeepsHalt := by
  intro symbol side price quantity now _ later
  refine (checkOrder_rejects_iff symbol).mpr ?_
  rcases h with ⟨hkill, hfile⟩ | hloss
  · left
    obtain ⟨f, hf⟩ := Option.isSome_iff_exists.mp hfile
    have hactive : p.restart.killSwitchActive := by
      rw [restart_eq, hf]
      exact (hkept f hf).trans hkill
    rw [orderBreach_kill hactive]
    simp
  · exact .inr (.inl ((restart_breakers p).mpr hloss))

/-- Without the switch on in the file and without its P&L, an order that nothing else stops gets through. -/
theorem saved_of_keepsHalt (hkept : p.Kept) (h : p.RestartKeepsHalt) (hhalted : p.Halted) {symbol : List UInt8} {side : Side}
    {price : ℚ} {quantity : Int} (hpass : p.LetsPass symbol side price quantity) : p.Saved := by
  obtain ⟨hhere, hthere, hrate⟩ := hpass
  by_contra hnot
  have hoff : (p.file.map (·.active)).getD false = false := by
    cases hf : p.file with
    | none => rfl
    | some f =>
      refine (hkept f hf).trans (Bool.eq_false_iff.mpr fun hkill => hnot (.inl ⟨hkill, ?_⟩))
      rw [hf]
      rfl
  have hmeets : (p.checkOrder symbol side price quantity 0).1.halts := by
    refine (checkOrder_halts_iff symbol).mpr ?_
    by_cases hkill : p.risk.killSwitchActive
    · exact .inl hkill
    · exact .inr ⟨hhere.resolve_left hkill, hhalted.resolve_left hkill⟩
  rcases (checkOrder_rejects_iff symbol).mp (h symbol side price quantity 0 hmeets 0) with hb | hp | hr
  · refine hb ?_
    rw [restart_eq, hoff]
    exact hthere
  · exact hnot (.inr ((restart_breakers p).mp hp))
  · exact absurd ((restart_rate p 0).mp hr) (not_le.mpr hrate)

/-- After any calls of a day a restart keeps the halt if and only if there is none, or it is in the file (the switch,
    or a P&L beyond the daily loss), or no order gets past the other checks. -/
theorem restart_keeps_halt_iff (limits : RiskLimits ℚ) (calls : List Call) : ((start limits).run calls).RestartKeepsHalt ↔
    ¬ ((start limits).run calls).Halted ∨ ((start limits).run calls).Saved ∨
      ∀ symbol side price quantity, ¬ ((start limits).run calls).LetsPass symbol side price quantity := by
  have hkept : ((start limits).run calls).Kept := run_kept (start_kept limits)
  generalize (start limits).run calls = p at hkept
  constructor
  · intro h
    by_cases hhalted : p.Halted
    · right
      by_cases hpass : ∃ symbol side price quantity, p.LetsPass symbol side price quantity
      · obtain ⟨symbol, side, price, quantity, hpass⟩ := hpass
        exact .inl (saved_of_keepsHalt hkept h hhalted hpass)
      · push Not at hpass
        exact .inr hpass
    · exact .inl hhalted
  · intro h
    rcases h with hnot | hsaved | hnone
    · intro symbol side price quantity now hmeets
      refine absurd ?_ hnot
      exact ((checkOrder_halts_iff symbol).mp hmeets).imp_right And.right
    · exact keepsHalt_of_saved hkept hsaved
    · intro symbol side price quantity now hmeets later
      refine (checkOrder_rejects_iff symbol).mpr ?_
      by_contra hall
      push Not at hall
      obtain ⟨hb, -, hrate⟩ := hall
      refine hnone symbol side price quantity ⟨((checkOrder_halts_iff symbol).mp hmeets).imp_right And.left, ?_, ?_⟩
      · rw [restart_eq] at hb
        cases hactive : (p.file.map (·.active)).getD false with
        | true =>
          rw [hactive, orderBreach_kill rfl] at hb
          cases hb
        | false =>
          rw [hactive] at hb
          exact hb
      · exact not_le.mp fun hoff => hrate ((restart_rate p later).mpr hoff)

/-! ## A loss that no order has met -/

def dayLimits : RiskLimits ℚ :=
  { maxPositionPerSymbol := 1000, maxPortfolioExposure := 1000000, maxDailyLoss := 50000, maxOrdersPerSecond := 100,
    maxOrderValue := 1000000, maxDrawdownPct := 5, maxPriceBandPct := 0, maxSharesPerOrder := 0, maxShortPerSymbol := 0,
    maxConsecutiveLosses := 0, maxDailyTradedNotional := 0, minPrice := 0, maxSymbolNotional := 0 }

/-- A loss of 60000 against a limit of 50000: the next order is refused, but not after a restart. -/
theorem restart_forgets_loss : ¬ ((start dayLimits).run [.updatePnl (-60000)]).RestartKeepsHalt := by
  intro h
  have hreject := h [65] .buy 100 10 0 (by decide +kernel) 0
  exact absurd hreject (by decide +kernel)

end Persisting

end HftLab.Risk
