/-
  HftLab.Lib.Bitmap — one bit a place, in 64-bit words: set, clear, and the scans for the next set
  bit at or below, or at or above, a place. A scan masks the word of the place it starts from, then
  reads whole words, and finds the bit in the first word that is not 0 by clz or ctz.
-/

import Mathlib.Logic.Function.Basic

namespace HftLab.Lib

open Function

abbrev Bitmap : Type := Nat → BitVec 64

namespace Bitmap

def empty : Bitmap := fun _ => 0

def test (m : Bitmap) (p : Nat) : Bool := (m (p / 64)).getLsbD (p % 64)

def setBit (m : Bitmap) (p : Nat) : Bitmap := Function.update m (p / 64) (m (p / 64) ||| (1#64 <<< (p % 64)))

def clearBit (m : Bitmap) (p : Nat) : Bitmap := Function.update m (p / 64) (m (p / 64) &&& ~~~(1#64 <<< (p % 64)))

/-- The highest bit of `word`, which stands for word `w`, or else of the words below it. -/
def downFrom (m : Bitmap) (w : Nat) (word : BitVec 64) : Option Nat :=
  if word ≠ 0 then some (64 * w + (63 - word.clz.toNat))
  else match w with
    | 0 => none
    | w + 1 => downFrom m w (m w)

/-- The highest set bit at or below `p`. -/
def scanDown (m : Bitmap) (p : Nat) : Option Nat :=
  m.downFrom (p / 64) (m (p / 64) &&& (BitVec.allOnes 64 >>> (63 - p % 64)))

/-- The lowest bit of `word`, which stands for word `w`, or else of the next `n` words. -/
def upFrom (m : Bitmap) (w : Nat) (word : BitVec 64) (n : Nat) : Option Nat :=
  if word ≠ 0 then some (64 * w + word.ctz.toNat)
  else match n with
    | 0 => none
    | n + 1 => upFrom m (w + 1) (m (w + 1)) n

/-- The lowest set bit at or above `p`, in a map of `words` words. -/
def scanUp (m : Bitmap) (words p : Nat) : Option Nat :=
  m.upFrom (p / 64) (m (p / 64) &&& (BitVec.allOnes 64 <<< (p % 64))) (words - 1 - p / 64)

/-! ## Set and clear -/

variable {m : Bitmap} {p q : Nat} {k j r words : Nat} {x : BitVec 64}

theorem test_empty (p : Nat) : empty.test p = false := BitVec.getLsbD_zero

theorem getLsbD_one_shiftLeft (hj : j < 64) : (1#64 <<< k).getLsbD j = decide (j = k) := by
  rw [BitVec.getLsbD_shiftLeft, BitVec.getLsbD_one]
  by_cases e : j = k
  · simp [e]
    omega
  · by_cases hlt : j < k
    · simp [hlt, e]
    · simp [hlt, e, hj]
      omega

theorem test_setBit (m : Bitmap) (p q : Nat) : (m.setBit p).test q = (m.test q || decide (q = p)) := by
  unfold test setBit
  have hq : q % 64 < 64 := Nat.mod_lt _ (by omega)
  by_cases hw : q / 64 = p / 64
  · rw [hw, update_self, BitVec.getLsbD_or, getLsbD_one_shiftLeft hq]
    congr 1
    exact decide_eq_decide.mpr ⟨fun e => by omega, fun e => by rw [e]⟩
  · rw [update_of_ne hw]
    have hne : q ≠ p := fun e => hw (by rw [e])
    simp [hne]

theorem test_clearBit (m : Bitmap) (p q : Nat) : (m.clearBit p).test q = (m.test q && !decide (q = p)) := by
  unfold test clearBit
  have hq : q % 64 < 64 := Nat.mod_lt _ (by omega)
  by_cases hw : q / 64 = p / 64
  · rw [hw, update_self, BitVec.getLsbD_and, BitVec.getLsbD_not, getLsbD_one_shiftLeft hq, decide_eq_true hq,
      Bool.true_and]
    congr 2
    exact decide_eq_decide.mpr ⟨fun e => by omega, fun e => by rw [e]⟩
  · rw [update_of_ne hw]
    have hne : q ≠ p := fun e => hw (by rw [e])
    simp [hne]

/-! ## Words -/

theorem clz_lt (hx : x ≠ 0) : x.clz.toNat < 64 := by
  have h := BitVec.lt_def.mp (BitVec.clz_lt_iff_ne_zero.mpr hx)
  exact h

theorem ctz_lt (hx : x ≠ 0) : x.ctz.toNat < 64 := by
  have h := BitVec.lt_def.mp (BitVec.ctz_lt_iff_ne_zero.mpr hx)
  exact h

theorem getLsbD_above_clz {i : Nat} (hi : 63 - x.clz.toNat < i) (h0 : x ≠ 0) : x.getLsbD i = false := by
  have hlt := clz_lt h0
  refine Nat.testBit_lt_two_pow (Nat.lt_of_lt_of_le BitVec.toNat_lt_two_pow_sub_clz ?_)
  exact Nat.pow_le_pow_right (by omega) (by omega)

theorem getLsbD_mask_down (hk : k < 64) : (BitVec.allOnes 64 >>> (63 - k)).getLsbD j = decide (j ≤ k) := by
  rw [BitVec.getLsbD_ushiftRight, BitVec.getLsbD_allOnes]
  exact decide_eq_decide.mpr (by omega)

theorem getLsbD_mask_up (hj : j < 64) : (BitVec.allOnes 64 <<< k).getLsbD j = decide (k ≤ j) := by
  rw [BitVec.getLsbD_shiftLeft, BitVec.getLsbD_allOnes]
  by_cases hlt : j < k
  · simp [hlt]
  · simp [hlt, hj]
    omega

/-! ## Scans -/

/-- What a downward scan from word `w`, read as `word`, finds: the highest bit of the map with that word. -/
theorem downFrom_spec (m : Bitmap) (w : Nat) (word : BitVec 64) :
    (m.downFrom w word = none ∧ ∀ q, q < 64 * (w + 1) → test (update m w word) q = false) ∨
    ∃ p, m.downFrom w word = some p ∧ p < 64 * (w + 1) ∧ test (update m w word) p ∧
      ∀ q, p < q → q < 64 * (w + 1) → test (update m w word) q = false := by
  induction w generalizing word with
  | zero =>
    have hin : ∀ q, q < 64 * (0 + 1) → test (update m 0 word) q = word.getLsbD q := by
      intro q hq
      unfold test
      rw [Nat.div_eq_of_lt (by omega), update_self, Nat.mod_eq_of_lt (by omega)]
    unfold downFrom
    by_cases h0 : word = 0
    · refine .inl ⟨by simp [h0], fun q hq => ?_⟩
      rw [hin q hq, h0]
      exact BitVec.getLsbD_zero
    · have hlt := clz_lt h0
      refine .inr ⟨64 * 0 + (63 - word.clz.toNat), if_pos h0, by omega, ?_, fun q hp hq => ?_⟩
      · rw [hin _ (by omega), Nat.mul_zero, Nat.zero_add]
        exact BitVec.getLsbD_true_clz_of_ne_zero (by omega) h0
      · rw [hin q hq]
        exact getLsbD_above_clz (by omega) h0
  | succ w ih =>
    have hin : ∀ q, 64 * (w + 1) ≤ q → q < 64 * (w + 1 + 1) →
        test (update m (w + 1) word) q = word.getLsbD (q % 64) := by
      intro q h1 h2
      unfold test
      rw [(by omega : q / 64 = w + 1), update_self]
    have hbelow : ∀ q, q < 64 * (w + 1) → test (update m (w + 1) word) q = test (update m w (m w)) q := by
      intro q hq
      unfold test
      rw [update_of_ne (by omega), update_eq_self]
    unfold downFrom
    by_cases h0 : word = 0
    · rw [if_neg (by simp [h0])]
      have hzero : ∀ q, 64 * (w + 1) ≤ q → q < 64 * (w + 1 + 1) → test (update m (w + 1) word) q = false := by
        intro q h1 h2
        rw [hin q h1 h2, h0]
        exact BitVec.getLsbD_zero
      rcases ih (m w) with ⟨he, hq⟩ | ⟨p, he, hlt, hp, hq⟩
      · refine .inl ⟨he, fun q hlt => ?_⟩
        by_cases hc : q < 64 * (w + 1)
        · rw [hbelow q hc]
          exact hq q hc
        · exact hzero q (by omega) hlt
      · refine .inr ⟨p, he, by omega, by rw [hbelow p hlt]; exact hp, fun q h1 h2 => ?_⟩
        by_cases hc : q < 64 * (w + 1)
        · rw [hbelow q hc]
          exact hq q h1 hc
        · exact hzero q (by omega) h2
    · have hlt := clz_lt h0
      refine .inr ⟨64 * (w + 1) + (63 - word.clz.toNat), if_pos h0, by omega, ?_, fun q hp hq => ?_⟩
      · rw [hin _ (by omega) (by omega), (by omega : (64 * (w + 1) + (63 - word.clz.toNat)) % 64 = 63 - word.clz.toNat)]
        exact BitVec.getLsbD_true_clz_of_ne_zero (by omega) h0
      · rw [hin q (by omega) hq]
        exact getLsbD_above_clz (by omega) h0

/-- The map with its word `p / 64` masked: a bit of that word is kept where `k` holds, and `k` holds of the others asked for. -/
theorem test_masked {k : Prop} [Decidable k] (m : Bitmap) (p q : Nat) (mask : BitVec 64)
    (hin : q / 64 = p / 64 → mask.getLsbD (q % 64) = decide k) (hout : q / 64 ≠ p / 64 → k) :
    test (update m (p / 64) (m (p / 64) &&& mask)) q = (m.test q && decide k) := by
  unfold test
  by_cases hw : q / 64 = p / 64
  · rw [hw, update_self, BitVec.getLsbD_and, hin hw]
  · rw [update_of_ne hw, decide_eq_true (hout hw), Bool.and_true]

/-- The map with its word `p / 64` cut above `p`. -/
theorem test_mask_down (m : Bitmap) (p q : Nat) (hq : q < 64 * (p / 64 + 1)) :
    test (update m (p / 64) (m (p / 64) &&& (BitVec.allOnes 64 >>> (63 - p % 64)))) q =
      (m.test q && decide (q ≤ p)) := by
  refine test_masked m p q _ (fun hw => ?_) fun hw => by omega
  rw [getLsbD_mask_down (Nat.mod_lt _ (by omega))]
  exact decide_eq_decide.mpr (by omega)

theorem scanDown_none (h : m.scanDown p = none) (hq : q ≤ p) : m.test q = false := by
  unfold scanDown at h
  rcases downFrom_spec m (p / 64) (m (p / 64) &&& (BitVec.allOnes 64 >>> (63 - p % 64))) with ⟨-, hall⟩ | ⟨_, he, -⟩
  · have h1 := hall q (by omega)
    rw [test_mask_down m p q (by omega), decide_eq_true hq, Bool.and_true] at h1
    exact h1
  · rw [h] at he
    cases he

theorem scanDown_some (h : m.scanDown p = some r) : r ≤ p ∧ m.test r ∧ ∀ q, r < q → q ≤ p → m.test q = false := by
  unfold scanDown at h
  rcases downFrom_spec m (p / 64) (m (p / 64) &&& (BitVec.allOnes 64 >>> (63 - p % 64))) with ⟨he, -⟩ | ⟨r', he, hlt, hr, hall⟩
  · rw [h] at he
    cases he
  · obtain rfl : r = r' := Option.some.inj (h.symm.trans he)
    rw [test_mask_down m p r hlt] at hr
    obtain ⟨h1, h2⟩ := Bool.and_eq_true_iff.mp hr
    refine ⟨of_decide_eq_true h2, h1, fun q hrq hqp => ?_⟩
    have h3 := hall q hrq (by omega)
    rw [test_mask_down m p q (by omega), decide_eq_true hqp, Bool.and_true] at h3
    exact h3

/-- What an upward scan from word `w`, read as `word`, finds: the lowest bit of the map with that word. -/
theorem upFrom_spec (m : Bitmap) (w : Nat) (word : BitVec 64) (n : Nat) :
    (m.upFrom w word n = none ∧ ∀ q, 64 * w ≤ q → q < 64 * (w + n + 1) → test (update m w word) q = false) ∨
    ∃ p, m.upFrom w word n = some p ∧ 64 * w ≤ p ∧ p < 64 * (w + n + 1) ∧ test (update m w word) p ∧
      ∀ q, 64 * w ≤ q → q < p → test (update m w word) q = false := by
  have hin : ∀ w (word : BitVec 64) q, 64 * w ≤ q → q < 64 * (w + 1) →
      test (update m w word) q = word.getLsbD (q % 64) := by
    intro w word q h1 h2
    unfold test
    rw [(by omega : q / 64 = w), update_self]
  have hfound : ∀ w (word : BitVec 64), word ≠ 0 → test (update m w word) (64 * w + word.ctz.toNat) ∧
      ∀ q, 64 * w ≤ q → q < 64 * w + word.ctz.toNat → test (update m w word) q = false := by
    intro w word h0
    have hlt := ctz_lt h0
    refine ⟨?_, fun q h1 h2 => ?_⟩
    · rw [hin w word _ (by omega) (by omega), (by omega : (64 * w + word.ctz.toNat) % 64 = word.ctz.toNat)]
      exact BitVec.getLsbD_true_ctz_of_ne_zero h0
    · rw [hin w word q h1 (by omega)]
      exact BitVec.getLsbD_false_of_lt_ctz (by omega)
  induction n generalizing w word with
  | zero =>
    unfold upFrom
    by_cases h0 : word = 0
    · refine .inl ⟨by simp [h0], fun q h1 h2 => ?_⟩
      rw [hin w word q h1 (by omega), h0]
      exact BitVec.getLsbD_zero
    · have hlt := ctz_lt h0
      exact .inr ⟨_, if_pos h0, by omega, by omega, (hfound w word h0).1, (hfound w word h0).2⟩
  | succ n ih =>
    unfold upFrom
    by_cases h0 : word = 0
    · rw [if_neg (by simp [h0])]
      have hzero : ∀ q, 64 * w ≤ q → q < 64 * (w + 1) → test (update m w word) q = false := by
        intro q h1 h2
        rw [hin w word q h1 h2, h0]
        exact BitVec.getLsbD_zero
      have habove : ∀ q, 64 * (w + 1) ≤ q →
          test (update m w word) q = test (update m (w + 1) (m (w + 1))) q := by
        intro q hq
        unfold test
        rw [update_of_ne (by omega), update_eq_self]
      rcases ih (w + 1) (m (w + 1)) with ⟨he, hq⟩ | ⟨p, he, h1, h2, hp, hq⟩
      · refine .inl ⟨he, fun q h1 h2 => ?_⟩
        by_cases hc : q < 64 * (w + 1)
        · exact hzero q h1 hc
        · rw [habove q (by omega)]
          exact hq q (by omega) (by omega)
      · refine .inr ⟨p, he, by omega, by omega, by rw [habove p h1]; exact hp, fun q h3 h4 => ?_⟩
        by_cases hc : q < 64 * (w + 1)
        · exact hzero q h3 hc
        · rw [habove q (by omega)]
          exact hq q (by omega) h4
    · have hlt := ctz_lt h0
      exact .inr ⟨_, if_pos h0, by omega, by omega, (hfound w word h0).1, (hfound w word h0).2⟩

/-- The map with its word `p / 64` cut below `p`. -/
theorem test_mask_up (m : Bitmap) (p q : Nat) (hq : 64 * (p / 64) ≤ q) :
    test (update m (p / 64) (m (p / 64) &&& (BitVec.allOnes 64 <<< (p % 64)))) q =
      (m.test q && decide (p ≤ q)) := by
  refine test_masked m p q _ (fun hw => ?_) fun hw => by omega
  rw [getLsbD_mask_up (Nat.mod_lt _ (by omega))]
  exact decide_eq_decide.mpr (by omega)

theorem scanUp_none (h : m.scanUp words p = none) (hp : p ≤ q) (hq : q < 64 * words) : m.test q = false := by
  unfold scanUp at h
  rcases upFrom_spec m (p / 64) (m (p / 64) &&& (BitVec.allOnes 64 <<< (p % 64))) (words - 1 - p / 64) with
    ⟨-, hall⟩ | ⟨_, he, -⟩
  · have h1 := hall q (by omega) (by omega)
    rw [test_mask_up m p q (by omega), decide_eq_true hp, Bool.and_true] at h1
    exact h1
  · rw [h] at he
    cases he

theorem scanUp_some (h : m.scanUp words p = some r) (hp : p < 64 * words) :
    p ≤ r ∧ r < 64 * words ∧ m.test r ∧ ∀ q, p ≤ q → q < r → m.test q = false := by
  unfold scanUp at h
  rcases upFrom_spec m (p / 64) (m (p / 64) &&& (BitVec.allOnes 64 <<< (p % 64))) (words - 1 - p / 64) with
    ⟨he, -⟩ | ⟨r', he, h1, h2, hr, hall⟩
  · rw [h] at he
    cases he
  · obtain rfl : r = r' := Option.some.inj (h.symm.trans he)
    rw [test_mask_up m p r h1] at hr
    obtain ⟨h3, h4⟩ := Bool.and_eq_true_iff.mp hr
    refine ⟨of_decide_eq_true h4, by omega, h3, fun q hpq hqr => ?_⟩
    have h5 := hall q (by omega) hqr
    rw [test_mask_up m p q (by omega), decide_eq_true hpq, Bool.and_true] at h5
    exact h5

end Bitmap

end HftLab.Lib
