import Mathlib.Algebra.Group.Int.Defs
import Mathlib.Algebra.Group.Nat.Defs

/-!
# Machine integers that do not leave their range

Arithmetic on `Int64` is exact arithmetic followed by a wrap. As long as the exact result fits, the
wrap does nothing, and a computation can be followed over the unbounded integers; that is all a
caller needs of a wrap it never meets.
-/

namespace Word

variable {a b : Int64} {n : ℤ}

/-- A number that fits is not changed by the wrap. -/
theorem bmod_of_fits (hlow : -2 ^ 63 ≤ n) (hhigh : n < 2 ^ 63) : n.bmod (2 ^ 64) = n :=
  Int.bmod_eq_of_le (by omega) (by omega)

/-- A number that is too large by less than the size of a word wraps around once. -/
theorem bmod_of_overflow (hlow : 2 ^ 63 ≤ n) (hhigh : n < 2 ^ 64) :
    n.bmod (2 ^ 64) = n - 2 ^ 64 := by
  rw [← Int.sub_bmod_right]
  exact bmod_of_fits (by omega) (by omega)

theorem toInt_add (hlow : -2 ^ 63 ≤ a.toInt + b.toInt) (hhigh : a.toInt + b.toInt < 2 ^ 63) :
    (a + b).toInt = a.toInt + b.toInt := by
  rw [Int64.toInt_add, bmod_of_fits hlow hhigh]

theorem toInt_sub (hlow : -2 ^ 63 ≤ a.toInt - b.toInt) (hhigh : a.toInt - b.toInt < 2 ^ 63) :
    (a - b).toInt = a.toInt - b.toInt := by
  rw [Int64.toInt_sub, bmod_of_fits hlow hhigh]

end Word
