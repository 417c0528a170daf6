/-
  HftLab.OrderBook.Integrity — the book's own audit, `audit_book_integrity`.

  The audit walks every level and counts what is wrong: a back link, a price, the tail, the number of
  orders, the two sums. Its sums are 64-bit, those of the level 32-bit. The lists are right in every
  reachable book; the sums are right modulo 2^32 as long as `modify` does not lower a waiting stop in
  place, whose quantity is in no level (`HftLab.OrderBook.Sums`). So the audit finds nothing if and
  only if the sums fit (`audit_clean_iff`).
-/

import HftLab.OrderBook.Sums

namespace HftLab.OrderBook

open Lib List

/-! ## The audit -/

/-- The local variables of the walk over one level. -/
structure Audit where
  prev : Option Nat := none
  count : Int := 0
  qtySum : Int := 0
  hiddenSum : Int := 0
  violations : Nat := 0

/-- `if (bad) ++violations`. -/
def violationIf (bad : Prop) [Decidable bad] (n : Nat) : Nat := if bad then n + 1 else n

namespace Core

variable (V : Env) (c : Core)

def auditOrder (p : Int) (a : Audit) (i : Nat) : Audit :=
  let o := c.pool i
  { prev := some i
    count := a.count + 1
    qtySum := a.qtySum + o.displayedQty
    hiddenSum := a.hiddenSum + o.hiddenQty
    violations := violationIf (o.priceTicks ≠ p) (violationIf (o.prevAtLevel ≠ a.prev) a.violations) }

def auditLevel (violations : Nat) (p : Int) : Nat :=
  let lvl := c.levels p
  let a := (c.queue V p).foldl (c.auditOrder p) { violations }
  let n := violationIf (lvl.tail ≠ a.prev) a.violations
  let n := violationIf (lvl.orderCount ≠ a.count) n
  let n := violationIf (lvl.totalQty ≠ a.qtySum) n
  violationIf (lvl.totalHidden ≠ a.hiddenSum) n

end Core

/-- `audit_book_integrity`: the number of violations. -/
def Book.auditBookIntegrity (V : Env) (b : Book) : Nat :=
  ((List.range V.LEVELS.toNat).map fun (k : Nat) => (k : Int)).foldl (b.core.auditLevel V) 0

/-- What the audit checks of level `p`: a doubly linked list of orders of that price, with its length
    and its sums. -/
structure LevelSound (V : Env) (c : Core) (p : Int) : Prop where
  linked : DList c.next c.prev (c.levels p).head (c.levels p).tail (c.queue V p)
  price : ∀ i ∈ c.queue V p, c.price i = p
  count : (c.levels p).orderCount = (c.queue V p).length
  qty : (c.levels p).totalQty = shownSum c.body (c.queue V p)
  hidden : (c.levels p).totalHidden = hiddenSum c.body (c.queue V p)

/-- The quantities resting at `p` can be summed in 32 bits. -/
def Core.Fits (V : Env) (c : Core) (p : Int) : Prop :=
  IsInt32 (shownSum c.body (c.queue V p)) ∧ IsInt32 (hiddenSum c.body (c.queue V p))

instance (V : Env) (c : Core) (p : Int) : Decidable (c.Fits V p) := inferInstanceAs (Decidable (_ ∧ _))

/-! ## What the audit finds -/

section

variable {V : Env} {c : Core} {p : Int}

theorem violationIf_eq (bad : Prop) [Decidable bad] (n : Nat) : violationIf bad n = n ↔ ¬ bad := by
  unfold violationIf
  split
  · simp_all
  · simp_all

theorem violationIf_eq_zero (bad : Prop) [Decidable bad] (n : Nat) : violationIf bad n = 0 ↔ n = 0 ∧ ¬ bad := by
  unfold violationIf
  split
  · simp_all
  · simp_all

theorem violationIf_le (bad : Prop) [Decidable bad] (n : Nat) : n ≤ violationIf bad n := by
  unfold violationIf
  split <;> omega

/-- The walk along a linked list finds no fault and ends with its length and its sums. -/
theorem audit_walk (l : List Nat) (a : Audit) (hb : Back c.prev a.prev l) (hp : ∀ i ∈ l, c.price i = p) :
    l.foldl (c.auditOrder p) a =
      { prev := l.getLast?.or a.prev
        count := a.count + l.length
        qtySum := a.qtySum + shownSum c.body l
        hiddenSum := a.hiddenSum + hiddenSum c.body l
        violations := a.violations } := by
  induction l generalizing a with
  | nil => simp [shownSum, hiddenSum]
  | cons i l ih =>
    obtain ⟨h1, h2⟩ := hb
    have hv : (c.auditOrder p a i).violations = a.violations := by
      have hp1 : (c.pool i).priceTicks = p := hp i mem_cons_self
      have hp2 : (c.pool i).prevAtLevel = a.prev := h1
      show violationIf _ (violationIf _ _) = _
      rw [(violationIf_eq _ _).mpr (not_not.mpr hp1), (violationIf_eq _ _).mpr (not_not.mpr hp2)]
    rw [foldl_cons, ih _ h2 fun j hj => hp j (mem_cons_of_mem _ hj), hv]
    have hlast : l.getLast?.or (some i) = (i :: l).getLast?.or a.prev := by
      cases l with
      | nil => rfl
      | cons j l => simp [List.getLast?_eq_getLast_of_ne_nil]
    have hlen : a.count + 1 + (l.length : Int) = a.count + ((i :: l).length : Nat) := by
      rw [length_cons]
      omega
    have hq : a.qtySum + (c.body i).displayedQty + shownSum c.body l = a.qtySum + shownSum c.body (i :: l) := by
      unfold shownSum
      rw [map_cons, sum_cons]
      omega
    have hh : a.hiddenSum + (c.body i).hiddenQty + hiddenSum c.body l = a.hiddenSum + hiddenSum c.body (i :: l) := by
      unfold hiddenSum
      rw [map_cons, sum_cons]
      omega
    rw [← hlast, ← hlen, ← hq, ← hh]
    rfl

theorem auditLevel_le (n : Nat) (p : Int) : n ≤ c.auditLevel V n p := by
  have hwalk : ∀ (l : List Nat) (a : Audit), a.violations ≤ (l.foldl (c.auditOrder p) a).violations := by
    intro l
    induction l with
    | nil => exact fun _ => le_rfl
    | cons i l ih =>
      intro a
      exact le_trans (le_trans (violationIf_le _ _) (violationIf_le _ _)) (ih (c.auditOrder p a i))
  refine le_trans (hwalk (c.queue V p) { violations := n }) ?_
  exact le_trans (violationIf_le _ _) (le_trans (violationIf_le _ _) (le_trans (violationIf_le _ _) (violationIf_le _ _)))

/-- A count that never goes down is 0 in the end when every item adds nothing to 0. -/
theorem foldl_eq_zero {f : Nat → Int → Nat} (hf : ∀ n p, n ≤ f n p) (l : List Int) :
    l.foldl f 0 = 0 ↔ ∀ p ∈ l, f 0 p = 0 := by
  have hmono : ∀ (l : List Int) (n : Nat), n ≤ l.foldl f n := by
    intro l
    induction l with
    | nil => exact fun _ => le_rfl
    | cons p l ih => exact fun n => le_trans (hf n p) (ih _)
  induction l with
  | nil => simp
  | cons p l ih =>
    rw [foldl_cons, forall_mem_cons]
    constructor
    · intro h
      have h0 : f 0 p = 0 := by
        have := hmono l (f 0 p)
        omega
      rw [h0] at h
      exact ⟨h0, ih.mp h⟩
    · rintro ⟨h0, hl⟩
      rw [h0]
      exact ih.mpr hl

theorem auditLevel_eq {b : Book} (hw : Wf V b) (hs : b.Summed V) (p : Int) :
    b.core.auditLevel V 0 p = 0 ↔ b.core.Fits V p := by
  have hd := hw.links.level p
  have htally := hs p
  have hcount : (b.core.levels p).orderCount = (b.core.queue V p).length := congrArg Tally.count htally
  have hqty : (b.core.levels p).totalQty = i32 (shownSum b.core.body (b.core.queue V p)) := congrArg Tally.qty htally
  have hhid : (b.core.levels p).totalHidden = i32 (hiddenSum b.core.body (b.core.queue V p)) :=
    congrArg Tally.hidden htally
  unfold Core.auditLevel
  rw [audit_walk (b.core.queue V p) { violations := 0 } hd.bwd (hw.links.price p)]
  simp only [violationIf_eq_zero, not_not, Int.zero_add, Option.or_none]
  rw [hqty, hhid]
  unfold Core.Fits
  rw [← i32_eq_iff, ← i32_eq_iff]
  refine ⟨fun h => ⟨h.1.2, h.2⟩, fun h => ⟨⟨⟨⟨trivial, hd.last⟩, hcount⟩, h.1⟩, h.2⟩⟩

theorem levelSound_iff {b : Book} (hw : Wf V b) (hs : b.Summed V) (p : Int) : LevelSound V b.core p ↔ b.core.Fits V p := by
  have htally := hs p
  have hqty : (b.core.levels p).totalQty = i32 (shownSum b.core.body (b.core.queue V p)) := congrArg Tally.qty htally
  have hhid : (b.core.levels p).totalHidden = i32 (hiddenSum b.core.body (b.core.queue V p)) :=
    congrArg Tally.hidden htally
  constructor
  · intro h
    exact ⟨i32_eq_iff.mp (hqty.symm.trans h.qty), i32_eq_iff.mp (hhid.symm.trans h.hidden)⟩
  · intro h
    exact ⟨hw.links.level p, hw.links.price p, congrArg Tally.count htally, hqty.trans (i32_eq h.1), hhid.trans (i32_eq h.2)⟩

end

/-- In a run that never lowers a waiting stop in place, the audit finds nothing and every level is
    sound, exactly when the quantities at each price can be summed in 32 bits. -/
theorem audit_clean_iff {V : Env} {b : Book} (h : Book.Reach V (fun b op _ => b.reducesStop op = false) b) :
    b.auditBookIntegrity V = 0 ∧ (∀ p, inRange V p → LevelSound V b.core p) ↔
      ∀ p, inRange V p → b.core.Fits V p := by
  have hw := (Reach.wf h).1
  have hs := Reach.summed h
  have haudit : b.auditBookIntegrity V = 0 ↔ ∀ p, inRange V p → b.core.Fits V p := by
    unfold Book.auditBookIntegrity
    rw [foldl_eq_zero auditLevel_le]
    refine forall_congr' fun p => ?_
    rw [mem_prices, auditLevel_eq hw hs]
  rw [haudit]
  refine ⟨fun h => h.1, fun hf => ⟨hf, fun p hp => (levelSound_iff hw hs p).mpr (hf p hp)⟩⟩

/-- An iceberg is hit and topped up, an order is decreased in place, a stop waits. -/
theorem audit_clean_small : ∃ b, Book.runIf smallEnv 20 (fun b op _ => !b.reducesStop op)
      [.submit { side := .sell, priceTicks := 3, qty := 9, type := .iceberg, displayedQty := 2 },
       .submit { side := .sell, priceTicks := 3, qty := 5 },
       .submitStop .buy 4 4 5 0 0,
       .submit { side := .buy, priceTicks := 3, qty := 3 },
       .modify 2 3 4] (fresh smallEnv) = some b ∧
    b.auditBookIntegrity smallEnv = 0 := by
  have hrun : (Book.runIf smallEnv 20 (fun b op _ => !b.reducesStop op)
      [.submit { side := .sell, priceTicks := 3, qty := 9, type := .iceberg, displayedQty := 2 },
       .submit { side := .sell, priceTicks := 3, qty := 5 },
       .submitStop .buy 4 4 5 0 0,
       .submit { side := .buy, priceTicks := 3, qty := 3 },
       .modify 2 3 4] (fresh smallEnv)).any
      (fun b => (List.range 8).all fun k => b.core.Fits smallEnv k) = true := by decide +kernel
  obtain ⟨b, hb, hr, hf⟩ := Reach.ofRun hrun
    fun _ _ _ h => by simpa using h
  refine ⟨b, hb, ((audit_clean_iff hr).mpr fun p hp => ?_).1⟩
  obtain ⟨h1, h2⟩ := hp
  have h2' : p < 8 := h2
  have hp := List.all_eq_true.mp hf p.toNat (List.mem_range.mpr (by omega))
  rw [Int.toNat_of_nonneg h1] at hp
  exact of_decide_eq_true hp

/-- Lowering a waiting stop takes the difference from the level of its limit price, where it is not. -/
theorem stop_decrease_breaks_audit : ∃ b, Book.runIf smallEnv 20 (fun _ _ _ => true)
      [.submitStop .buy 3 3 5 0 0, .modify 1 3 2] (fresh smallEnv) = some b ∧
    b.auditBookIntegrity smallEnv ≠ 0 ∧ ¬ LevelSound smallEnv b.core 3 := by
  have hrun : (Book.runIf smallEnv 20 (fun _ _ _ => true)
      [.submitStop .buy 3 3 5 0 0, .modify 1 3 2] (fresh smallEnv)).any
      (fun b => b.auditBookIntegrity smallEnv ≠ 0 &&
        (b.core.levels 3).totalQty ≠ shownSum b.core.body (b.core.queue smallEnv 3)) = true := by decide +kernel
  obtain ⟨b, hb, -, hf⟩ := Reach.ofRun hrun fun _ _ _ _ => trivial
  simp only [Bool.and_eq_true, decide_eq_true_eq] at hf
  exact ⟨b, hb, hf.1, fun h => hf.2 h.qty⟩

end HftLab.OrderBook
