/-
  HftLab.Lib.Int32 — 32-bit two's complement arithmetic on `Int`, and unsigned numbers.

  `i32 x` is the value a 32-bit register holds after computing `x`. Sums and differences may be
  wrapped at every step or once at the end (`i32_add_left`, `i32_sub_left`), and a value in range
  is not changed (`i32_eq`).
-/

import Mathlib.Tactic.Common

namespace HftLab.Lib

def int32Max : Int := 2147483647

def int32Min : Int := -2147483648

def i32 (x : Int) : Int := x.bmod 4294967296

/-- The same for 64 bits. -/
def i64 (x : Int) : Int := x.bmod 18446744073709551616

def IsInt32 (x : Int) : Prop := int32Min ≤ x ∧ x ≤ int32Max

instance (x : Int) : Decidable (IsInt32 x) := inferInstanceAs (Decidable (_ ∧ _))

def IsInt64 (x : Int) : Prop := -9223372036854775808 ≤ x ∧ x ≤ 9223372036854775807

instance (x : Int) : Decidable (IsInt64 x) := inferInstanceAs (Decidable (_ ∧ _))

/-- An `int32_t` as the `uint32_t` it is passed on as. -/
def uint32Of (x : Int) : Nat := (x % 4294967296).toNat

/-- What a 64-bit unsigned register holds after computing `x`. -/
def uint64 (x : Nat) : Nat := x % 18446744073709551616

theorem uint64_eq {x : Nat} (h : x < 18446744073709551616) : uint64 x = x := Nat.mod_eq_of_lt h

theorem i32_eq {x : Int} (h : IsInt32 x) : i32 x = x := by
  obtain ⟨h1, h2⟩ := h
  simp only [int32Min, int32Max] at h1 h2
  exact Int.bmod_eq_of_le (by omega) (by omega)

theorem i64_eq {x : Int} (h : IsInt64 x) : i64 x = x := by
  obtain ⟨h1, h2⟩ := h
  exact Int.bmod_eq_of_le (by omega) (by omega)

/-- What is not negative wraps downwards. -/
theorem i64_le {x : Int} (h : 0 ≤ x) : i64 x ≤ x := by
  have hbmod := Int.bmod_def x 18446744073709551616
  unfold i64
  rw [hbmod]
  split <;> omega

theorem isInt32_i32 (x : Int) : IsInt32 (i32 x) := by
  have h1 : -((4294967296 : Nat) / 2 : Int) ≤ x.bmod 4294967296 := Int.le_bmod (by decide)
  have h2 : x.bmod 4294967296 < ((4294967296 : Nat) + 1) / 2 := Int.bmod_lt (by decide)
  simp only [IsInt32, int32Min, int32Max, i32]
  omega

theorem i32_eq_iff {x : Int} : i32 x = x ↔ IsInt32 x := ⟨fun h => h ▸ isInt32_i32 x, i32_eq⟩

@[simp] theorem i32_add_left (x y : Int) : i32 (i32 x + y) = i32 (x + y) := Int.bmod_add_bmod

@[simp] theorem i64_add_left (x y : Int) : i64 (i64 x + y) = i64 (x + y) := Int.bmod_add_bmod

@[simp] theorem i32_sub_left (x y : Int) : i32 (i32 x - y) = i32 (x - y) := Int.bmod_sub_bmod

@[simp] theorem i32_sub_right (x y : Int) : i32 (x - i32 y) = i32 (x - y) := Int.sub_bmod_bmod

@[simp] theorem i32_add_right (x y : Int) : i32 (x + i32 y) = i32 (x + y) := Int.add_bmod_bmod

@[simp] theorem i32_neg (x : Int) : i32 (-i32 x) = i32 (-x) := by
  have h := i32_sub_right 0 x
  rwa [Int.zero_sub, Int.zero_sub] at h

/-- The same bits, signed or not. -/
@[simp] theorem i32_uint32Of (x : Int) : i32 (uint32Of x) = i32 x := by
  have h : (uint32Of x : Int) = x % (4294967296 : Nat) := Int.toNat_of_nonneg (Int.emod_nonneg x (by decide))
  rw [h]
  exact Int.emod_bmod ..

@[simp] theorem i32_zero : i32 0 = 0 := rfl

end HftLab.Lib
