/-
  HftLab.Ouch.Shares — the tracker loses no shares and makes none.

  Runs register each token once and bring any responses but REPLACED and RESTATED, which set the open quantity anew.
  - as long as no report takes an order out of 32 bits, what was ordered is filled, open or freed (`Conserved`). The amount of
    a report is only clamped from above, so a share count of 2^31 and more, which is read as a negative number, can do so;
  - with smaller share counts it never happens, and each order stays within what was ordered (`Within`).
-/

import HftLab.Lib.System
import HftLab.Ouch.Terminal

namespace HftLab.Ouch

open Lib
open HftLab.Risk (Doubles wholeDoubles)

/-- The report keeps the quantities of the order within 32 bits. -/
def Core.Fits (c : Core) (shares : Int) : ResponseType → Prop
  | .executed =>
    let exec := if shares < c.remaining then shares else c.remaining
    c.state.Terminal ∨ IsInt32 (c.filled + exec) ∧ IsInt32 (c.remaining - exec)
  | .broken =>
    let back := if shares < c.filled then shares else c.filled
    IsInt32 (c.filled - back) ∧ IsInt32 (c.remaining + back)
  | .aiqCxl =>
    let dec := if shares < c.remaining then shares else c.remaining
    IsInt32 (c.remaining - dec)
  | _ => True

/-- The quantities of an order lie within what was ordered. -/
structure Core.Within (c : Core) : Prop where
  filled : 0 ≤ c.filled
  remaining : 0 ≤ c.remaining
  original : c.filled + c.remaining ≤ c.original

/-- The share count of the response is below 2^31, so that it is not read as a negative number. -/
def Event.Small : Event → Prop
  | .response data => 0 ≤ (parseResponse data).shares
  | _ => True

namespace OUCHOrderTracker

variable {D : Type} (F : Doubles D) (t : OUCHOrderTracker D)

def exec : Event → OUCHOrderTracker D
  | .new token shares => t.onNew F token shares
  | .cancelSent token => t.onCancelSent token
  | .response data => (t.onResponse F (parseResponse data)).2

/-- A fresh token with a share count that is not negative, a cancel, or a response that is no replacement or restatement. -/
def Takes : Event → Prop
  | .new token shares => t.orders.lookup token = none ∧ 0 ≤ shares.1
  | .cancelSent _ => True
  | .response data => (parseResponse data).type ≠ .replaced ∧ (parseResponse data).type ≠ .restated

/-- The response takes no order out of 32 bits. -/
def Fits : Event → Prop
  | .response data =>
    ∀ o, t.orders.lookup (parseResponse data).token = some o → o.toCore.Fits (parseResponse data).shares (parseResponse data).type
  | _ => True

def Step (P : OUCHOrderTracker D → Event → Prop) (t t' : OUCHOrderTracker D) : Prop := ∃ e, t.Takes e ∧ P t e ∧ t' = t.exec F e

def Conserved : Prop :=
  sumOver t.orders (·.original) = sumOver t.orders (·.filled) + sumOver t.orders (·.remaining) + t.cancelledShares

end OUCHOrderTracker

/-! ## One order -/

namespace Core

variable {c : Core} {shares : Int} {type : ResponseType}

/-- What leaves the order is freed. -/
theorem react_conserves (h1 : type ≠ .replaced) (h2 : type ≠ .restated) (hf : c.Fits shares type) :
    (c.react shares type).1.filled + (c.react shares type).1.remaining + (c.react shares type).2.cancelledShares =
      c.filled + c.remaining := by
  cases type with
  | replaced => exact absurd rfl h1
  | restated => exact absurd rfl h2
  | executed =>
    dsimp only [react]
    split
    · exact Int.add_zero _
    · rename_i ht
      obtain ⟨hfill, hrem⟩ := hf.resolve_left ht
      dsimp only
      rw [i32_eq hfill, i32_eq hrem]
      omega
  | broken =>
    obtain ⟨hfill, hrem⟩ := hf
    dsimp only [react]
    rw [i32_eq hfill, i32_eq hrem]
    omega
  | aiqCxl =>
    dsimp only [react]
    rw [i32_eq hf]
    omega
  | cancelled =>
    dsimp only [react]
    omega
  | accepted | rejected | error | unknown | sysEvent | cxlPend | cxlReject => exact Int.add_zero _

theorem Within.fits (h : c.Within) (horig : IsInt32 c.original) (hs : 0 ≤ shares) (type : ResponseType) : c.Fits shares type := by
  obtain ⟨h1, h2, h3⟩ := h
  have hmax : c.original ≤ int32Max := horig.2
  unfold int32Max at hmax
  have hint : ∀ x : Int, 0 ≤ x → x ≤ 2147483647 → IsInt32 x := fun x hx hx' => by
    unfold IsInt32 int32Min int32Max
    omega
  cases type with
  | executed =>
    right
    split
    · exact ⟨hint _ (by omega) (by omega), hint _ (by omega) (by omega)⟩
    · exact ⟨hint _ (by omega) (by omega), hint _ (by omega) (by omega)⟩
  | broken =>
    dsimp only [Fits]
    split
    · exact ⟨hint _ (by omega) (by omega), hint _ (by omega) (by omega)⟩
    · exact ⟨hint _ (by omega) (by omega), hint _ (by omega) (by omega)⟩
  | aiqCxl =>
    dsimp only [Fits]
    split
    · exact hint _ (by omega) (by omega)
    · exact hint _ (by omega) (by omega)
  | _ => trivial

/-- A report of a share count that is not negative. -/
theorem Within.react (h : c.Within) (horig : IsInt32 c.original) (hs : 0 ≤ shares) (h1 : type ≠ .replaced) (h2 : type ≠ .restated) :
    (c.react shares type).1.Within ∧
      (c.react shares type).1.filled = c.filled + (c.react shares type).2.execShares - (c.react shares type).2.brokenShares := by
  have hfits := h.fits horig hs type
  obtain ⟨hfill, hrem, htotal⟩ := h
  cases type with
  | replaced => exact absurd rfl h1
  | restated => exact absurd rfl h2
  | executed =>
    dsimp only [Core.react]
    split
    · exact ⟨⟨hfill, hrem, htotal⟩, by simp⟩
    · rename_i ht
      obtain ⟨hf, hr⟩ := hfits.resolve_left ht
      dsimp only
      rw [i32_eq hf, i32_eq hr]
      generalize hexec : (if shares < c.remaining then shares else c.remaining) = exec
      have h0 : 0 ≤ exec ∧ exec ≤ c.remaining := by
        rw [← hexec]
        split <;> omega
      refine ⟨⟨?_, ?_, ?_⟩, ?_⟩
      · dsimp only
        omega
      · dsimp only
        omega
      · dsimp only
        omega
      · split <;> omega
  | broken =>
    obtain ⟨hf, hr⟩ := hfits
    dsimp only [Core.react]
    rw [i32_eq hf, i32_eq hr]
    generalize hback : (if shares < c.filled then shares else c.filled) = back
    have h0 : 0 ≤ back ∧ back ≤ c.filled := by
      rw [← hback]
      split <;> omega
    refine ⟨⟨?_, ?_, ?_⟩, ?_⟩
    · dsimp only
      omega
    · dsimp only
      omega
    · dsimp only
      omega
    · omega
  | aiqCxl =>
    dsimp only [Core.react]
    rw [i32_eq hfits]
    generalize hdec : (if shares < c.remaining then shares else c.remaining) = dec
    have h0 : 0 ≤ dec ∧ dec ≤ c.remaining := by
      rw [← hdec]
      split <;> omega
    refine ⟨⟨hfill, ?_, ?_⟩, by simp⟩
    · dsimp only
      omega
    · dsimp only
      omega
  | cancelled => exact ⟨⟨hfill, Int.le_refl 0, by dsimp only [Core.react]; omega⟩, by simp [Core.react]⟩
  | accepted | rejected | error | unknown | sysEvent | cxlPend | cxlReject =>
    exact ⟨⟨hfill, hrem, htotal⟩, by simp [Core.react]⟩

end Core

/-! ## Runs -/

namespace OUCHOrderTracker

variable {D : Type} {F : Doubles D} {t t' : OUCHOrderTracker D} {o o' : Record D} {token data : List UInt8}

theorem Holds.sumOver (h : Holds t t' token o') (ho : t.orders.lookup token = some o) (w : Record D → Int) :
    sumOver t'.orders w = sumOver t.orders w + (w o' - w o) := by
  rcases h with h | ⟨h, ho'⟩
  · rw [h]
    exact sumOver_insert w o' ho
  · have heq : o' = o := Option.some.inj (ho'.symm.trans ho)
    rw [h, heq]
    omega

/-- A response that is no replacement moves no counter of shares, or it is a report on an order. -/
theorem exec_response_cases (F : Doubles D) (t : OUCHOrderTracker D) (hr : (parseResponse data).type ≠ .replaced) :
    ((t.exec F (.response data)).orders = t.orders ∧ (t.exec F (.response data)).execShares = t.execShares ∧
      (t.exec F (.response data)).brokenShares = t.brokenShares ∧ (t.exec F (.response data)).cancelledShares = t.cancelledShares) ∨
    ∃ o o', t.orders.lookup (parseResponse data).token = some o ∧ Holds t (t.exec F (.response data)) (parseResponse data).token o' ∧
      o'.toCore = (o.toCore.react (parseResponse data).shares (parseResponse data).type).1 ∧
      (t.exec F (.response data)).toCounts = t.toCounts.add (o.toCore.react (parseResponse data).shares (parseResponse data).type).2 := by
  rcases onResponse_cases (F := F) t (parseResponse data) with ⟨-, horders, hcounts⟩ | ⟨h, -⟩ | ⟨-, o, ho, o', hholds, hcore, hcounts⟩
  · left
    refine ⟨horders, ?_, ?_, ?_⟩
    · exact (congrArg Counts.execShares hcounts).trans (Int.add_zero _)
    · exact (congrArg Counts.brokenShares hcounts).trans (Int.add_zero _)
    · exact (congrArg Counts.cancelledShares hcounts).trans (Int.add_zero _)
  · exact absurd h hr
  · exact .inr ⟨o, o', ho, hholds, hcore, hcounts⟩

/-- A cancel that was sent leaves the quantities alone. -/
theorem exec_cancelSent (F : Doubles D) (t : OUCHOrderTracker D) (token : List UInt8) :
    (t.exec F (.cancelSent token)).toCounts = t.toCounts ∧ ((t.exec F (.cancelSent token)).orders = t.orders ∨
      ∃ o o', t.orders.lookup token = some o ∧ Holds t (t.exec F (.cancelSent token)) token o' ∧ o'.toCore = o.toCore) := by
  unfold exec onCancelSent
  dsimp only
  split
  · rename_i o ho
    split
    · exact ⟨rfl, .inr ⟨o, _, ho, .inl rfl, rfl⟩⟩
    · exact ⟨rfl, .inl rfl⟩
  · exact ⟨rfl, .inl rfl⟩

theorem Conserved.init (F : Doubles D) : (init F).Conserved := rfl

theorem Conserved.step {e : Event} (h : t.Conserved) (ht : t.Takes e) (hf : t.Fits e) : (t.exec F e).Conserved := by
  unfold Conserved at h ⊢
  cases e with
  | new token shares =>
    have hsum := fun w : Record D → Int => sumOver_fresh w
      { state := .new, original := shares.1, remaining := shares.1, filled := 0, fillNotional := F.ofInt 0, price := F.ofInt 0 } ht.1
    show sumOver (t.orders.insert token _) _ = sumOver (t.orders.insert token _) _ + sumOver (t.orders.insert token _) _ + _
    rw [hsum, hsum, hsum]
    dsimp only [exec, onNew, store]
    omega
  | cancelSent token =>
    obtain ⟨hcounts, horders | ⟨o, o', ho, hholds, hcore⟩⟩ := exec_cancelSent F t token
    · rw [horders, congrArg Counts.cancelledShares hcounts]
      exact h
    · rw [hholds.sumOver ho, hholds.sumOver ho, hholds.sumOver ho, congrArg Counts.cancelledShares hcounts,
        congrArg Core.original hcore, congrArg Core.filled hcore, congrArg Core.remaining hcore]
      omega
  | response data =>
    rcases exec_response_cases F t ht.1 with ⟨horders, -, -, hfreed⟩ | ⟨o, o', ho, hholds, hcore, hcounts⟩
    · rw [horders, hfreed]
      exact h
    · have hcons := Core.react_conserves ht.1 ht.2 (hf o ho)
      have horig := Core.react_original o.toCore (parseResponse data).shares (parseResponse data).type
      rw [← hcore] at hcons horig
      have hfreed : (t.exec F (.response data)).cancelledShares =
          t.cancelledShares + (o.toCore.react (parseResponse data).shares (parseResponse data).type).2.cancelledShares :=
        congrArg Counts.cancelledShares hcounts
      rw [hholds.sumOver ho, hholds.sumOver ho, hholds.sumOver ho, hfreed, horig]
      omega

/-- Each order is within what was ordered, and the sum of their fills is what was executed and not broken. -/
structure Inv (t : OUCHOrderTracker D) : Prop where
  within : ∀ k o, t.orders.lookup k = some o → o.toCore.Within ∧ IsInt32 o.original
  executed : t.execShares - t.brokenShares = sumOver t.orders (·.filled)

theorem Inv.init (F : Doubles D) : (init F).Inv where
  within _ _ h := by cases h
  executed := rfl

/-- One order was changed. -/
theorem Inv.holds (h : t.Inv) (hholds : Holds t t' token o') (hw : o'.toCore.Within ∧ IsInt32 o'.original)
    (ho : t.orders.lookup token = some o)
    (he : t'.execShares - t'.brokenShares = t.execShares - t.brokenShares + (o'.filled - o.filled)) : t'.Inv where
  within k o1 hk := by
    rw [hholds.lookup] at hk
    split at hk
    · cases hk
      exact hw
    · exact h.within k o1 hk
  executed := by
    have := h.executed
    rw [hholds.sumOver ho, he, this]

theorem Inv.step {e : Event} (h : t.Inv) (ht : t.Takes e) (hs : e.Small) : t.Fits e ∧ (t.exec F e).Inv := by
  cases e with
  | new token shares =>
    refine ⟨trivial, fun k o hk => ?_, ?_⟩
    · rcases lookup_insert_cases hk with ⟨-, rfl⟩ | ⟨-, hk⟩
      · exact ⟨⟨Int.le_refl 0, ht.2, (Int.zero_add _).le⟩, shares.2⟩
      · exact h.within k o hk
    · have hsum := sumOver_fresh (fun o : Record D => o.filled)
        { state := .new, original := shares.1, remaining := shares.1, filled := 0, fillNotional := F.ofInt 0, price := F.ofInt 0 } ht.1
      show t.execShares - t.brokenShares = sumOver (t.orders.insert token _) _
      rw [hsum, h.executed]
      exact (Int.add_zero _).symm
  | cancelSent token =>
    refine ⟨trivial, ?_⟩
    obtain ⟨hcounts, horders | ⟨o, o', ho, hholds, hcore⟩⟩ := exec_cancelSent F t token
    · refine ⟨fun k o hk => h.within k o (by rwa [horders] at hk), ?_⟩
      rw [horders, congrArg Counts.execShares hcounts, congrArg Counts.brokenShares hcounts]
      exact h.executed
    · refine h.holds hholds ?_ ho ?_
      · rw [hcore]
        exact h.within token o ho
      · rw [congrArg Counts.execShares hcounts, congrArg Counts.brokenShares hcounts, congrArg Core.filled hcore]
        omega
  | response data =>
    refine ⟨fun o ho => (h.within _ o ho).1.fits (h.within _ o ho).2 hs _, ?_⟩
    rcases exec_response_cases F t ht.1 with ⟨horders, hexec, hbroken, -⟩ | ⟨o, o', ho, hholds, hcore, hcounts⟩
    · refine ⟨fun k o hk => h.within k o (by rwa [horders] at hk), ?_⟩
      rw [horders, hexec, hbroken]
      exact h.executed
    · obtain ⟨hw, horig⟩ := h.within _ o ho
      obtain ⟨hw', hfilled⟩ := hw.react horig hs ht.1 ht.2
      have horig' := Core.react_original o.toCore (parseResponse data).shares (parseResponse data).type
      have hexec : (t.exec F (.response data)).execShares =
          t.execShares + (o.toCore.react (parseResponse data).shares (parseResponse data).type).2.execShares :=
        congrArg Counts.execShares hcounts
      have hbroken : (t.exec F (.response data)).brokenShares =
          t.brokenShares + (o.toCore.react (parseResponse data).shares (parseResponse data).type).2.brokenShares :=
        congrArg Counts.brokenShares hcounts
      rw [← hcore] at hw' hfilled horig'
      refine h.holds hholds ⟨hw', ?_⟩ ho ?_
      · rw [horig']
        exact horig
      · rw [hexec, hbroken, hfilled]
        omega

/-- No shares are lost while the quantities stay within 32 bits, which they do when no share count is read as negative. -/
theorem shares_conserved (F : Doubles D) :
    (∀ t, Reachable (· = init F) (Step F Fits) t → t.Conserved) ∧
    ∀ t, Reachable (· = init F) (Step F fun _ e => e.Small) t →
      t.Conserved ∧ (∀ k o, t.orders.lookup k = some o → 0 ≤ o.filled ∧ 0 ≤ o.remaining ∧ o.filled + o.remaining ≤ o.original) ∧
        t.execShares - t.brokenShares = sumOver t.orders (·.filled) := by
  constructor
  · intro t ht
    refine ht.invariant (fun t h => h ▸ Conserved.init F) fun t t' hc hs => ?_
    obtain ⟨e, htakes, hfits, rfl⟩ := hs
    exact hc.step htakes hfits
  · intro t ht
    have hboth : t.Conserved ∧ t.Inv := by
      refine ht.invariant (I := fun t => t.Conserved ∧ t.Inv) (fun t h => h ▸ ⟨Conserved.init F, Inv.init F⟩) fun t t' hc hs => ?_
      obtain ⟨e, htakes, hsmall, rfl⟩ := hs
      obtain ⟨hfits, hinv⟩ := hc.2.step (F := F) htakes hsmall
      exact ⟨hc.1.step htakes hfits, hinv⟩
    refine ⟨hboth.1, fun k o hk => ?_, hboth.2.executed⟩
    obtain ⟨h1, h2, h3⟩ := (hboth.2.within k o hk).1
    exact ⟨h1, h2, h3⟩

theorem isInt32_hundred : IsInt32 100 := by decide

/-- A partial fill, a bust of a part of it and the cancel of the rest. -/
def sampleReports : List Event :=
  [.new [65] ⟨100, isInt32_hundred⟩, .response ((encodeExecuted [65] 40 10000 9).message []),
    .response ((encodeBrokenTrade [65] 15 9 'E'.toUInt8).message []), .response ((encodeCancelled [65] 75 'U'.toUInt8).message [])]

theorem shares_conserved_sample : ∃ t : OUCHOrderTracker Int,
    t.execShares = 40 ∧ t.Conserved ∧ t.execShares - t.brokenShares = sumOver t.orders (·.filled) := by
  obtain ⟨t, ht⟩ : ∃ t, t = sampleReports.foldl (exec wholeDoubles) (init wholeDoubles) := ⟨_, rfl⟩
  have hexec : t.execShares = 40 := by
    rw [ht]
    decide +kernel
  have hreach : Reachable (· = init wholeDoubles) (Step wholeDoubles fun _ e => e.Small) t := by
    rw [ht]
    unfold sampleReports
    simp only [List.foldl_cons, List.foldl_nil]
    refine .step (.step (.step (.step (.start rfl) ⟨_, ?_, ?_, rfl⟩) ⟨_, ?_, ?_, rfl⟩) ⟨_, ?_, ?_, rfl⟩) ⟨_, ?_, ?_, rfl⟩
    · exact ⟨rfl, by decide⟩
    · trivial
    · exact ⟨by decide +kernel, by decide +kernel⟩
    · show 0 ≤ (parseResponse _).shares
      decide +kernel
    · exact ⟨by decide +kernel, by decide +kernel⟩
    · show 0 ≤ (parseResponse _).shares
      decide +kernel
    · exact ⟨by decide +kernel, by decide +kernel⟩
    · show 0 ≤ (parseResponse _).shares
      decide +kernel
  obtain ⟨hcons, -, hfilled⟩ := (shares_conserved wholeDoubles).2 t hreach
  exact ⟨t, hexec, hcons, hfilled⟩

/-- A share count of 2^31 is read as -2^31 and wraps the open quantity. -/
theorem negative_shares_lost : ∃ t : OUCHOrderTracker Int,
    Reachable (· = init wholeDoubles) (Step wholeDoubles fun _ _ => True) t ∧ ¬t.Conserved := by
  refine ⟨_, .step (.step (.start rfl) ⟨.new [65] ⟨100, by decide⟩, ⟨rfl, by decide⟩, trivial, rfl⟩)
    ⟨.response ((encodeExecuted [65] (-2147483648) 10000 9).message []), ⟨by decide +kernel, by decide +kernel⟩, trivial, rfl⟩, ?_⟩
  unfold Conserved
  decide +kernel

end OUCHOrderTracker

end HftLab.Ouch
