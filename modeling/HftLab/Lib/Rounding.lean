/-
  HftLab.Lib.Rounding — from rationals to integers and to doubles.
-/

import Mathlib.Data.Int.Log
import Mathlib.Data.Rat.Floor

namespace HftLab.Lib

/-- Toward 0, as a cast to an integer type does within its range. -/
def truncate (x : ℚ) : Int := if 0 ≤ x then ⌊x⌋ else ⌈x⌉

theorem truncate_nonneg {x : ℚ} (h : 0 ≤ x) : truncate x = ⌊x⌋ := if_pos h

/-- To the nearest integer, from halfway to the even one. -/
def nearest (x : ℚ) : Int :=
  if x - ⌊x⌋ < 1 / 2 ∨ (x - ⌊x⌋ = 1 / 2 ∧ ⌊x⌋ % 2 = 0) then ⌊x⌋ else ⌊x⌋ + 1

/-- What a `double` holds after computing `x`: 53 binary digits, the last of them not below 2^-1074. Infinities are left out. -/
def toDouble (x : ℚ) : ℚ :=
  let ulp : ℚ := 2 ^ max (Int.log 2 |x| - 52) (-1074)
  nearest (x / ulp) * ulp

end HftLab.Lib
