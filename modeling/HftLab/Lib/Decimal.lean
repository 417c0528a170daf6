/-
  HftLab.Lib.Decimal — numbers in decimal, as C prints and reads them.

  `decimal` is `%u` (and `%d` of what is not negative), `decimal3` is `%03u` of a byte, `atoi` reads a text as glibc does: blanks,
  a sign, digits, a `long` that stops at its ends and of which an `int` keeps the low bits.
  - `atoi_decimal`, `atoi_decimal3`: what was printed is read back, as far as an `int` goes.
-/

import HftLab.Lib.Int32
import Mathlib.Algebra.Group.Nat.Defs
import Mathlib.Data.List.TakeWhile

namespace HftLab.Lib

open List

variable {s : List UInt8} {n : Nat} {b : UInt8}

def decimal (n : Nat) : List UInt8 := (Nat.toDigits 10 n).map Char.toUInt8

/-- The last three digits. -/
def decimal3 (n : Nat) : List UInt8 := [UInt8.ofNat (48 + n / 100 % 10), UInt8.ofNat (48 + n / 10 % 10), UInt8.ofNat (48 + n % 10)]

def IsDigit (b : UInt8) : Prop := 48 ≤ b.toNat ∧ b.toNat ≤ 57

instance (b : UInt8) : Decidable (IsDigit b) := inferInstanceAs (Decidable (_ ∧ _))

def IsBlank (b : UInt8) : Prop := b = 32 ∨ 9 ≤ b.toNat ∧ b.toNat ≤ 13

instance (b : UInt8) : Decidable (IsBlank b) := inferInstanceAs (Decidable (_ ∨ _))

def digitsValue (l : List UInt8) : Nat := l.foldl (fun v b => 10 * v + (b.toNat - 48)) 0

/-- `strtol` of base 10: a value outside of a `long` is the end that it passed. -/
def strtol (s : List UInt8) : Int :=
  match s.dropWhile (IsBlank ·) with
  | 45 :: s => max (-(digitsValue (s.takeWhile (IsDigit ·)) : Int)) (-9223372036854775808)
  | 43 :: s => min (digitsValue (s.takeWhile (IsDigit ·)) : Int) 9223372036854775807
  | s => min (digitsValue (s.takeWhile (IsDigit ·)) : Int) 9223372036854775807

def atoi (s : List UInt8) : Int := i32 (strtol s)

/-! ## Reading digits -/

theorem strtol_digits (h : ∀ b ∈ s, IsDigit b) (hv : digitsValue s ≤ 2147483647) : strtol s = digitsValue s := by
  have hblank : s.dropWhile (IsBlank ·) = s := by
    refine dropWhile_eq_self_iff.mpr fun hpos => ?_
    have hd := h _ (getElem_mem hpos)
    rw [decide_eq_true_eq]
    rintro (hb | hb)
    · rw [hb] at hd
      exact absurd hd (by decide)
    · obtain ⟨h1, h2⟩ := hd
      omega
  have hall : s.takeWhile (IsDigit ·) = s := takeWhile_eq_self_iff.mpr fun b hb => decide_eq_true (h b hb)
  unfold strtol
  rw [hblank]
  split
  · exact absurd (h 45 (mem_cons_self ..)) (by decide)
  · exact absurd (h 43 (mem_cons_self ..)) (by decide)
  · rw [hall]
    omega

theorem atoi_digits (h : ∀ b ∈ s, IsDigit b) (hv : digitsValue s ≤ 2147483647) : atoi s = digitsValue s := by
  unfold atoi
  rw [strtol_digits h hv]
  refine i32_eq ⟨?_, ?_⟩
  · unfold int32Min
    omega
  · unfold int32Max
    omega

/-! ## Printed numbers -/

theorem toUInt8_digit {c : Char} (h : c.isDigit) : c.toUInt8.toNat = c.toNat ∧ IsDigit c.toUInt8 := by
  have hrange : 48 ≤ c.toNat ∧ c.toNat ≤ 57 := by
    have := Char.isDigit_iff_toNat.mp h
    simpa using this
  have htoNat : c.toUInt8.toNat = c.toNat := by
    show c.val.toUInt8.toNat = c.val.toNat
    rw [UInt32.toNat_toUInt8]
    exact Nat.mod_eq_of_lt (Nat.lt_of_le_of_lt hrange.2 (by decide))
  refine ⟨htoNat, ?_⟩
  unfold IsDigit
  rwa [htoNat]

theorem isDigit_of_mem_decimal (h : b ∈ decimal n) : IsDigit b := by
  obtain ⟨c, hc, rfl⟩ := mem_map.mp h
  exact (toUInt8_digit (Nat.isDigit_of_mem_toDigits (by decide) (by decide) hc)).2

theorem digitsValue_map {l : List Char} (h : ∀ c ∈ l, c.isDigit) : digitsValue (l.map Char.toUInt8) = Nat.ofDigitChars 10 l 0 := by
  unfold digitsValue Nat.ofDigitChars
  rw [foldl_map]
  suffices ∀ v, l.foldl (fun v c => 10 * v + (c.toUInt8.toNat - 48)) v = l.foldl (fun v c => 10 * v + (c.toNat - '0'.toNat)) v from this 0
  induction l with
  | nil => exact fun _ => rfl
  | cons c l ih =>
    intro v
    rw [foldl_cons, foldl_cons, (toUInt8_digit (h c (mem_cons_self ..))).1]
    exact ih (fun d hd => h d (mem_cons_of_mem _ hd)) _

theorem digitsValue_decimal (n : Nat) : digitsValue (decimal n) = n := by
  unfold decimal
  rw [digitsValue_map fun c hc => Nat.isDigit_of_mem_toDigits (by decide) (by decide) hc, Nat.ofDigitChars_ten_toDigits]

theorem decimal_ne_nil (n : Nat) : decimal n ≠ [] := by
  unfold decimal
  simp

theorem decimal_length_le {k : Nat} (hk : 0 < k) (h : n < 10 ^ k) : (decimal n).length ≤ k := by
  unfold decimal
  rw [length_map]
  exact (Nat.length_toDigits_le_iff (by decide) hk).mpr h

theorem atoi_decimal (h : n ≤ 2147483647) : atoi (decimal n) = n := by
  rw [atoi_digits fun b hb => isDigit_of_mem_decimal hb, digitsValue_decimal]
  rwa [digitsValue_decimal]

theorem toNat_digit {d : Nat} (h : d < 10) : (UInt8.ofNat (48 + d)).toNat = 48 + d := by
  rw [UInt8.toNat_ofNat']
  exact Nat.mod_eq_of_lt (by omega)

theorem isDigit_of_mem_decimal3 (h : b ∈ decimal3 n) : IsDigit b := by
  have hdigit : ∀ d, d < 10 → IsDigit (UInt8.ofNat (48 + d)) := fun d hd => by
    unfold IsDigit
    rw [toNat_digit hd]
    omega
  simp only [decimal3, mem_cons, not_mem_nil, or_false] at h
  rcases h with rfl | rfl | rfl <;> exact hdigit _ (Nat.mod_lt _ (by decide))

theorem atoi_decimal3 (h : n < 1000) : atoi (decimal3 n) = n := by
  have hvalue : digitsValue (decimal3 n) = n := by
    simp only [digitsValue, decimal3, foldl_cons, foldl_nil, toNat_digit (Nat.mod_lt _ (by decide : 0 < 10))]
    omega
  rw [atoi_digits fun b hb => isDigit_of_mem_decimal3 hb, hvalue]
  omega

end HftLab.Lib
