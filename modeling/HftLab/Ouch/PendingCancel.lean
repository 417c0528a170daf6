/-
  HftLab.Ouch.PendingCancel — the flag of an order whose cancel is on its way (ouch_order_state.hpp).

  The queries take it that only working orders carry the flag. The Executed report that fills an order and the reports that reject
  one leave it set, and a Cancel Pending sets it on any order, so it holds as long as no report does this
  (`pending_cancel_works_iff`).
-/

import HftLab.Ouch.Shares

namespace HftLab.Ouch

open Lib
open HftLab.Risk (Doubles wholeDoubles)

def OrderState.Working (s : OrderState) : Prop := s = .live ∨ s = .partlyFilled

instance (s : OrderState) : Decidable s.Working := inferInstanceAs (Decidable (_ ∨ _))

/-- The report neither ends the order while it has the flag nor gives the flag to an order that does not work. -/
def Record.Leaves {D : Type} (o : Record D) (shares : Int) : ResponseType → Prop
  | .executed => o.pendingCancel = true → shares < o.remaining ∧ o.remaining - shares ≤ int32Max
  | .rejected | .error | .unknown | .sysEvent => o.pendingCancel = false
  | .cxlPend => o.state.Working
  | _ => True

namespace OUCHOrderTracker

variable {D : Type} (F : Doubles D) (t : OUCHOrderTracker D)

def workingShares : Int := sum32 t.orders (fun o => decide o.state.Working) (·.remaining)

def pendingCancelShares : Int := sum32 t.orders (·.pendingCancel) (·.remaining)

/-- The quotient, taken as exact. -/
def pendingCancelFraction : ℚ := if 0 < t.workingShares then (t.pendingCancelShares : ℚ) / t.workingShares else 0

/-- Only working orders carry the flag. -/
def PendingWorks : Prop := ∀ k o, t.orders.lookup k = some o → o.pendingCancel = true → o.state.Working

/-- What the queries are to return. -/
structure Condemned : Prop where
  shares : t.pendingCancelShares ≤ t.workingShares
  nonneg : 0 ≤ t.pendingCancelFraction
  le_one : t.pendingCancelFraction ≤ 1

/-- Share counts are not negative and below 2^31, and no sum of them overflows. -/
def Counted (t : OUCHOrderTracker D) : Event → Prop
  | .new _ shares => 0 ≤ shares.1
  | .cancelSent _ => True
  | .response data => 0 ≤ (parseResponse data).shares ∧ t.Fits (.response data)

def SumFits : Prop := sumOver t.orders (fun o => if decide o.state.Working then o.remaining else 0) ≤ int32Max

/-- No report of the response ends an order with the flag, or sets it on one that does not work. -/
def Leaves (t : OUCHOrderTracker D) : Event → Prop
  | .response data =>
    ∀ o, t.orders.lookup (parseResponse data).token = some o → o.Leaves (parseResponse data).shares (parseResponse data).type
  | _ => True

end OUCHOrderTracker

/-! ## One order -/

/-- The flag after a report that left `remaining` shares open. -/
def flagAfter (flag : Bool) (remaining : Int) : ResponseType → Bool
  | .cancelled | .cxlReject | .replaced => false
  | .cxlPend => true
  | .aiqCxl => if remaining = 0 then false else flag
  | _ => flag

namespace Core

variable {c : Core} {shares : Int}

/-- An execution leaves shares open. -/
theorem left_iff (hrange : IsInt32 c.remaining) (hshares : IsInt32 shares) :
    0 < i32 (c.remaining - if shares < c.remaining then shares else c.remaining) ↔
      shares < c.remaining ∧ c.remaining - shares ≤ int32Max := by
  obtain ⟨hmin, hmax⟩ := hrange
  obtain ⟨hsmin, hsmax⟩ := hshares
  simp only [int32Min, int32Max] at hmin hmax hsmin hsmax ⊢
  by_cases hlt : shares < c.remaining
  · rw [if_pos hlt]
    unfold i32
    rw [Int.bmod_eq_emod]
    split <;> omega
  · rw [if_neg hlt, Int.sub_self, i32_zero]
    omega

/-- Share counts that are not negative stay so. -/
theorem react_nonneg {type : ResponseType} (hf : 0 ≤ c.filled) (hr : 0 ≤ c.remaining) (hs : 0 ≤ shares) (hfits : c.Fits shares type) :
    0 ≤ (c.react shares type).1.filled ∧ 0 ≤ (c.react shares type).1.remaining := by
  cases type with
  | executed =>
    dsimp only [react]
    split
    · exact ⟨hf, hr⟩
    · rename_i hterm
      obtain ⟨hfill, hrem⟩ := hfits.resolve_left hterm
      dsimp only
      rw [i32_eq hfill, i32_eq hrem]
      split <;> omega
  | broken =>
    obtain ⟨hfill, hrem⟩ := hfits
    dsimp only [react]
    rw [i32_eq hfill, i32_eq hrem]
    split <;> omega
  | aiqCxl =>
    dsimp only [react]
    rw [i32_eq hfits]
    split <;> omega
  | cancelled => exact ⟨hf, Int.le_refl 0⟩
  | restated => exact ⟨hf, hs⟩
  | _ => exact ⟨hf, hr⟩

end Core

/-- The order has the flag only while it works, before the report and after. -/
theorem Record.leaves_iff {D : Type} {o : Record D} {shares : Int} (hw : o.pendingCancel → o.state.Working)
    (hrange : IsInt32 o.remaining) (hshares : IsInt32 shares) (type : ResponseType) :
    (flagAfter o.pendingCancel (o.toCore.react shares type).1.remaining type = true → (o.toCore.react shares type).1.state.Working) ↔
      o.Leaves shares type := by
  cases type with
  | executed =>
    have hleft := Core.left_iff hrange hshares
    unfold Leaves flagAfter Core.react
    rw [← hleft]
    generalize (if shares < o.remaining then shares else o.remaining) = exec
    refine imp_congr_right fun hp => ?_
    have hworks := hw hp
    have hterm : ¬o.state.Terminal := by
      intro h
      rcases hworks with hs | hs <;> rw [hs] at h <;> exact absurd h (by decide)
    rw [if_neg hterm]
    dsimp only
    by_cases hpos : 0 < i32 (o.remaining - exec)
    · rw [if_neg (by omega)]
      refine ⟨fun _ => hpos, fun _ => ?_⟩
      split
      · exact .inr rfl
      · exact hworks
    · rw [if_pos (by omega)]
      exact ⟨fun hbad => absurd hbad (by decide), fun h => absurd h hpos⟩
  | accepted => exact ⟨fun _ => trivial, fun _ _ => .inl rfl⟩
  | broken =>
    refine ⟨fun _ => trivial, fun _ _ => ?_⟩
    unfold Core.react
    dsimp only
    generalize (if shares < o.filled then shares else o.filled) = back
    split
    · exact .inr rfl
    · exact .inl rfl
  | aiqCxl =>
    refine ⟨fun _ => trivial, fun _ => ?_⟩
    unfold flagAfter Core.react
    generalize (if shares < o.remaining then shares else o.remaining) = dec
    by_cases hz : i32 (o.remaining - dec) = 0
    · simp only [if_pos hz]
      intro hflag
      cases hflag
    · simp only [if_neg hz]
      exact hw
  | cancelled => exact ⟨fun _ => trivial, fun _ h => (by cases h)⟩
  | cxlReject => exact ⟨fun _ => trivial, fun _ h => (by cases h)⟩
  | replaced => exact ⟨fun _ => trivial, fun _ h => (by cases h)⟩
  | cxlPend => exact ⟨fun h => h rfl, fun h _ => h⟩
  | restated => exact ⟨fun _ => trivial, fun _ => hw⟩
  | rejected | error | unknown | sysEvent =>
    constructor
    · intro h
      cases hp : o.pendingCancel with
      | false => exact hp
      | true =>
        have hbad : OrderState.Working .rejected := h hp
        exact absurd hbad (by decide)
    · intro hp hset
      have hp : o.pendingCancel = false := hp
      have hset : o.pendingCancel := hset
      rw [hp] at hset
      cases hset

namespace OUCHOrderTracker

variable {D : Type} {F : Doubles D} {t t' : OUCHOrderTracker D} {o o' : Record D} {token data : List UInt8} {e : Event}
    {r : OUCHResponse} {P : Record D → Prop}

/-! ## The flag of a report -/

theorem store_flag (t : OUCHOrderTracker D) (token : List UInt8) (o : Record D) :
    ((t.store token o).orders.lookup token).map (·.pendingCancel) = some o.pendingCancel := by
  show ((t.orders.insert token o).lookup token).map _ = _
  rw [AList.lookup_insert]
  rfl

theorem onExecuted_flag (ho : t.orders.lookup r.token = some o) :
    ((t.onExecuted F o r).orders.lookup r.token).map (·.pendingCancel) = some o.pendingCancel := by
  unfold onExecuted
  by_cases hterm : o.state.Terminal
  · rw [if_pos hterm, ho]
    rfl
  · rw [if_neg hterm]
    dsimp only
    generalize (if r.shares < o.remaining then r.shares else o.remaining) = exec
    split
    · exact store_flag _ _ _
    · split <;> exact store_flag _ _ _

/-- The flag of the order that a report names. -/
theorem onReport_flag (hr : r.type ≠ .replaced) (ho : t.orders.lookup r.token = some o) :
    ((t.onReport F o r).orders.lookup r.token).map (·.pendingCancel) =
      some (flagAfter o.pendingCancel (o.toCore.react r.shares r.type).1.remaining r.type) := by
  unfold onReport
  cases ht : r.type with
  | replaced => exact absurd ht hr
  | executed => exact onExecuted_flag ho
  | aiqCxl =>
    unfold onAiqCxl Core.react flagAfter
    dsimp only
    generalize (if r.shares < o.remaining then r.shares else o.remaining) = dec
    split <;> exact store_flag _ _ _
  | accepted => exact store_flag _ _ _
  | cancelled => exact store_flag _ _ _
  | broken =>
    unfold onBroken
    exact store_flag _ _ _
  | cxlPend => exact store_flag _ _ _
  | cxlReject => exact store_flag _ _ _
  | restated => exact store_flag _ _ _
  | rejected => exact store_flag _ _ _
  | error => exact store_flag _ _ _
  | unknown => exact store_flag _ _ _
  | sysEvent => exact store_flag _ _ _

/-- A response names no order, replaces one, or leaves one order changed and its flag as the report says. -/
theorem exec_response_flag (F : Doubles D) (t : OUCHOrderTracker D) (data : List UInt8) :
    ((t.exec F (.response data)).orders = t.orders ∧
      ((parseResponse data).type = .replaced ∨ t.orders.lookup (parseResponse data).token = none)) ∨
    ((parseResponse data).type = .replaced ∧ ∃ o o' : Record D, t.orders.lookup (parseResponse data).prevToken = some o ∧
      o'.pendingCancel = false ∧ o'.filled = o.filled ∧ o'.remaining = (parseResponse data).shares ∧
      (t.exec F (.response data)).orders = (t.orders.erase (parseResponse data).prevToken).insert (parseResponse data).token o') ∨
    ((parseResponse data).type ≠ .replaced ∧ ∃ o o' : Record D, t.orders.lookup (parseResponse data).token = some o ∧
      Holds t (t.exec F (.response data)) (parseResponse data).token o' ∧
      o'.toCore = (o.toCore.react (parseResponse data).shares (parseResponse data).type).1 ∧
      o'.pendingCancel = flagAfter o.pendingCancel o'.remaining (parseResponse data).type) := by
  unfold exec
  dsimp only
  generalize parseResponse data = r
  by_cases hr : r.type = .replaced
  · unfold onResponse
    rw [if_pos hr]
    unfold onReplaced
    cases ho : t.orders.lookup r.prevToken with
    | none => exact .inl ⟨rfl, .inl hr⟩
    | some o =>
      exact .inr (.inl ⟨hr, o,
        { o with
          remaining := r.shares
          orderRef := r.orderRef
          pendingCancel := false
          price := priceOf F r.price
          state := if 0 < o.filled then .partlyFilled else .live }, rfl, rfl, rfl, rfl, rfl⟩)
  · rcases onResponse_cases (F := F) t r with ⟨hnone, horders, -⟩ | ⟨h, -⟩ | ⟨-, o, ho, o', hholds, hcore, -⟩
    · rw [if_neg hr] at hnone
      exact .inl ⟨horders, .inr hnone⟩
    · exact absurd h hr
    · have hflag := onReport_flag (F := F) (t := { t with responses := t.responses + 1 }) hr ho
      have hresult : (t.onResponse F r).2 = ({ t with responses := t.responses + 1 } : OUCHOrderTracker D).onReport F o r := by
        unfold onResponse
        rw [if_neg hr, ho]
      rw [← hresult, hholds.lookup, if_pos rfl, Option.map_some] at hflag
      refine .inr (.inr ⟨hr, o, o', ho, hholds, hcore, ?_⟩)
      rw [Option.some.inj hflag, congrArg Core.remaining hcore]

/-! ## Runs -/

def Ranged (t : OUCHOrderTracker D) : Prop := ∀ k o, t.orders.lookup k = some o → IsInt32 o.remaining

def Nonneg (t : OUCHOrderTracker D) : Prop := ∀ k o, t.orders.lookup k = some o → 0 ≤ o.filled ∧ 0 ≤ o.remaining

/-- One order was changed, and what held of it holds still. -/
theorem Holds.all (h : Holds t t' token o') (hP : ∀ k o, t.orders.lookup k = some o → P o) (ho : P o') :
    ∀ k o, t'.orders.lookup k = some o → P o := by
  intro k o hk
  rw [h.lookup] at hk
  split at hk
  · cases hk
    exact ho
  · exact hP k o hk

/-- A property that a fresh order has, that the flag of a cancel does not touch, and that the reports keep. -/
theorem exec_all (h : ∀ k o, t.orders.lookup k = some o → P o)
    (hnew : ∀ token shares, e = .new token shares →
      P { state := .new, original := shares.1, remaining := shares.1, filled := 0, fillNotional := F.ofInt 0, price := F.ofInt 0 })
    (hcancel : ∀ o, P o → P { o with pendingCancel := true } ∨ ¬o.state.Working)
    (hreplaced : ∀ data, e = .response data → ∀ o o' : Record D, P o → o'.pendingCancel = false →
      o'.filled = o.filled → o'.remaining = (parseResponse data).shares → P o')
    (hreport : ∀ data, e = .response data → (parseResponse data).type ≠ .replaced → ∀ o o' : Record D,
      t.orders.lookup (parseResponse data).token = some o → P o →
      o'.toCore = (o.toCore.react (parseResponse data).shares (parseResponse data).type).1 →
      o'.pendingCancel = flagAfter o.pendingCancel o'.remaining (parseResponse data).type → P o') :
     ∀ k o, (t.exec F e).orders.lookup k = some o → P o := by
  cases e with
  | new token shares => exact forall_insert h (hnew token shares rfl)
  | cancelSent token =>
    unfold exec onCancelSent
    dsimp only
    split
    · rename_i o ho
      split
      · rename_i hs
        refine forall_insert h ?_
        exact (hcancel o (h _ _ ho)).resolve_right fun hnot => hnot hs
      · exact h
    · exact h
  | response data =>
    rcases exec_response_flag F t data with ⟨horders, -⟩ | ⟨-, o, o', ho, hflag, hfilled, hrem, horders⟩ |
      ⟨hr, o, o', ho, hholds, hcore, hflag⟩
    · rw [horders]
      exact h
    · rw [horders]
      exact forall_insert (forall_erase h _) (hreplaced data rfl o o' (h _ _ ho) hflag hfilled hrem)
    · exact hholds.all h (hreport data rfl hr o o' ho (h _ _ ho) hcore hflag)

theorem Ranged.exec (h : t.Ranged) (F : Doubles D) (e : Event) : (t.exec F e).Ranged := by
  refine exec_all (P := fun o => IsInt32 o.remaining) h (fun _ shares _ => shares.2) (fun _ ho => .inl ho) ?_ ?_
  · intro data _ o o' _ _ _ hrem
    rw [hrem]
    exact parseResponse_shares data
  · intro data _ _ o o' _ ho hcore _
    rw [congrArg Core.remaining hcore]
    exact Core.react_ranged ho (parseResponse_shares data) _

theorem Nonneg.exec (h : t.Nonneg) (F : Doubles D) (hc : t.Counted e) : (t.exec F e).Nonneg := by
  refine exec_all (P := fun o => 0 ≤ o.filled ∧ 0 ≤ o.remaining) h ?_ (fun _ ho => .inl ho) ?_ ?_
  · intro token shares he
    subst he
    exact ⟨Int.le_refl 0, hc⟩
  · intro data he o o' ho _ hfilled hrem
    subst he
    rw [hfilled, hrem]
    exact ⟨ho.1, hc.1⟩
  · intro data he _ o o' hlookup ho hcore _
    subst he
    rw [congrArg Core.filled hcore, congrArg Core.remaining hcore]
    exact Core.react_nonneg ho.1 ho.2 hc.1 (hc.2 o hlookup)

theorem PendingWorks.exec (h : t.PendingWorks) (hrange : t.Ranged) (F : Doubles D) (hleaves : t.Leaves e) :
    (t.exec F e).PendingWorks := by
  refine exec_all (P := fun o => o.pendingCancel = true → o.state.Working) h (fun _ _ _ hflag => by cases hflag) ?_ ?_ ?_
  · intro o _
    by_cases hw : o.state.Working
    · exact .inl fun _ => hw
    · exact .inr hw
  · intro data _ o o' _ hflag _ _ hset
    rw [hflag] at hset
    cases hset
  · intro data he hr o o' hlookup ho hcore hflag hset
    subst he
    rw [hflag, congrArg Core.remaining hcore] at hset
    rw [congrArg Core.state hcore]
    exact (Record.leaves_iff ho (hrange _ _ hlookup) (parseResponse_shares data) _).mpr (hleaves o hlookup) hset

/-- The step leaves the flag on working orders only if it meets the condition. -/
theorem leaves_of_pendingWorks (h : t.PendingWorks) (hrange : t.Ranged) (hnext : (t.exec F e).PendingWorks) : t.Leaves e := by
  cases e with
  | new token shares => trivial
  | cancelSent token => trivial
  | response data =>
    intro o ho
    refine (Record.leaves_iff (h _ _ ho) (hrange _ _ ho) (parseResponse_shares data) _).mp ?_
    rcases exec_response_flag F t data with ⟨-, habsurd⟩ | ⟨hrep, -⟩ | ⟨-, o1, o', ho1, hholds, hcore, hflag⟩
    · rcases habsurd with hrep | hnone
      · rw [hrep]
        exact fun h => (by cases h)
      · rw [hnone] at ho
        cases ho
    · rw [hrep]
      exact fun h => (by cases h)
    · obtain rfl : o = o1 := Option.some.inj (ho.symm.trans ho1)
      have hafter : o'.pendingCancel → o'.state.Working := hnext _ o' (by rw [hholds.lookup, if_pos rfl])
      rwa [hflag, congrArg Core.remaining hcore, congrArg Core.state hcore] at hafter

/-! ## The sums -/

/-- What the flagged orders have open is part of what the working ones have. -/
theorem PendingWorks.condemned (h : t.PendingWorks) (hnonneg : t.Nonneg) (hfits : t.SumFits) : t.Condemned := by
  obtain ⟨hpending, hle⟩ := sum32_le_sum32 (p := fun o : Record D => o.pendingCancel)
    (fun k o ho hp => decide_eq_true (h k o ho hp)) (fun k o ho => (hnonneg k o ho).2) hfits
  obtain ⟨hlow, hhigh⟩ := fraction_bounds hpending hle
  exact ⟨hle, hlow, hhigh⟩

/-- In a run the flag is on working orders only, and the queries return what they are to. -/
structure Kept (F : Doubles D) (events : List Event) : Prop where
  works : EachState (exec F) PendingWorks (init F) events
  condemned : EachStep (exec F) Counted (init F) events → EachState (exec F) SumFits (init F) events →
    EachState (exec F) Condemned (init F) events

theorem pending_cancel_works_iff (F : Doubles D) (events : List Event) : Kept F events ↔ EachStep (exec F) Leaves (init F) events := by
  have hnone : ∀ (P : Record D → Prop) k o, (init F).orders.lookup k = some o → P o := fun _ _ _ h => (by cases h)
  have hiff : EachState (exec F) PendingWorks (init F) events ↔ EachStep (exec F) Leaves (init F) events :=
    EachStep.true.eachState_iff (I := Ranged) (hnone _) (hnone _) (fun _ e _ hrange _ _ => hrange.exec F e)
      fun _ _ _ hrange hworks => ⟨leaves_of_pendingWorks hworks hrange, hworks.exec hrange F⟩
  constructor
  · intro h
    exact hiff.mp h.works
  · intro h
    have hworks := hiff.mpr h
    refine ⟨hworks, fun hcounted hfits => ?_⟩
    have hnonneg := hcounted.eachState (I := Nonneg) (hnone _) fun _ _ hc hn => hn.exec F hc
    exact ((hworks.and hnonneg).and hfits).mono fun _ hs => hs.1.1.condemned hs.1.2 hs.2

def sampleCrossed : List Event :=
  [.new [65] ⟨100, isInt32_hundred⟩, .response ((encodeAccepted [65] 'B'.toUInt8 100 [88] 10000 7 'D'.toUInt8).message []),
    .cancelSent [65], .response ((encodeExecuted [65] 100 10000 9).message [])]

/-- The order fills before its cancel is answered, and the flag stays. -/
theorem filled_with_flag : ¬Kept wholeDoubles sampleCrossed := by
  intro h
  obtain ⟨-, -, -, -, hlast⟩ := h.works
  have hlast : (sampleCrossed.foldl (exec wholeDoubles) (init wholeDoubles)).PendingWorks := hlast
  have hrecord : ((sampleCrossed.foldl (exec wholeDoubles) (init wholeDoubles)).orders.lookup [65]).map
      (fun o => (o.pendingCancel, o.state)) = some (true, .filled) := by decide +kernel
  obtain ⟨o, ho, hval⟩ := Option.map_eq_some_iff.mp hrecord
  obtain ⟨hflag, hstate⟩ := Prod.mk.inj hval
  have hworks := hlast _ o ho hflag
  rw [hstate] at hworks
  exact absurd hworks (by decide)

end OUCHOrderTracker

end HftLab.Ouch
