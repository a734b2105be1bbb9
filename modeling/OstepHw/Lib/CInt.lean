import Mathlib.Algebra.Ring.Int.Defs
import Mathlib.Algebra.Ring.Nat

/-!
# Values of type `int`

A value of 32 bits; what does not fit wraps around.

* `toInt`, `toInt_of_lt` — what is stored, and the values that are stored as they are;
* `toInt_toInt_add` — a counter that wraps around;
* `toInt_lt_zero`, `toInt_eq_neg_one` — values that are too large.
-/

set_option autoImplicit false

namespace OstepHw.CInt

/-- What an `int` holds when `x` is stored in it. -/
def toInt (x : Int) : Int := x.bmod (2 ^ 32)

theorem toInt_of_lt {x : Int} (h0 : 0 ≤ x) (hx : x < 2 ^ 31) : toInt x = x := by
  apply Int.bmod_eq_of_le_mul_two <;> omega

/-- A value that has wrapped around already goes on as if it had not. -/
theorem toInt_toInt_add (x y : Int) : toInt (toInt x + y) = toInt (x + y) := Int.bmod_add_bmod

/-- The first value that does not fit is negative, and so are all up to twice as much. -/
theorem toInt_lt_zero {x : Int} (hx : 2 ^ 31 ≤ x) (hx' : x < 2 ^ 32) : toInt x < 0 := by
  rw [toInt, Int.bmod_def]
  omega

theorem toInt_eq_neg_one {p : Nat} : toInt p = -1 ↔ p % 2 ^ 32 = 2 ^ 32 - 1 := by
  rw [toInt, Int.bmod_def]
  omega

end OstepHw.CInt
