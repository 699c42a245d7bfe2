import Mathlib.Algebra.Order.Group.Defs
import Mathlib.Algebra.Order.Group.Int
import Mathlib.Algebra.Order.Group.Unbundled.Abs
import Mathlib.Data.Int.ConditionallyCompleteOrder
import Mathlib.Data.Nat.Cast.Order.Basic
import Mathlib.Data.Nat.Log
import Mathlib.Order.ConditionallyCompleteLattice.Basic

/-!
# Integers in a binary floating-point format

A format with `p` significant bits holds every integer below `2 ^ p` and, above that, only multiples
of a unit that doubles with each further bit. `toPrecision p n` is the value such a format stores
for `n`: the nearest one it has, ties to the even multiple. `Double.ofInt` is the case of the 53
bits of an IEEE double, on signed integers.

Two facts carry everything done with such numbers. Rounding is **exact** up to `2 ^ p`
(`toPrecision_of_le`), and it is **monotone** (`toPrecision_mono`), so that a comparison of rounded
values can only be wrong by calling two different integers equal. Monotonicity within a binade is
that of rounding to a fixed unit; across binades it holds because the power of two between them is
itself representable.

The exponent range of the format is not modelled: no integer below `2 ^ 1024` leaves that of a
double.
-/

namespace Double

/-! ### Rounding to a multiple of a unit -/

/-- The number of units `u` nearest to `n`, the even one of two that are equally near. -/
def nearestEven (u n : ℕ) : ℕ :=
  if 2 * (n % u) < u then n / u
  else if u < 2 * (n % u) then n / u + 1
  else n / u + n / u % 2

theorem div_le_nearestEven (u n : ℕ) : n / u ≤ nearestEven u n := by
  unfold nearestEven
  split_ifs <;> omega

theorem nearestEven_le (u n : ℕ) : nearestEven u n ≤ n / u + 1 := by
  unfold nearestEven
  split_ifs <;> omega

theorem nearestEven_mono (u : ℕ) : Monotone (nearestEven u) := by
  intro n m hnm
  rcases (Nat.div_le_div_right (c := u) hnm).lt_or_eq with hlt | heq
  · -- different quotients: one unit is all that rounding can move
    calc nearestEven u n ≤ n / u + 1 := nearestEven_le u n
      _ ≤ m / u := hlt
      _ ≤ nearestEven u m := div_le_nearestEven u m
  · -- the same quotient: the larger number has the larger remainder
    have hrem : n % u ≤ m % u := by
      have hn := Nat.div_add_mod n u
      have hm := Nat.div_add_mod m u
      rw [heq] at hn
      omega
    unfold nearestEven
    rw [heq]
    split_ifs <;> omega

/-- A multiple of the unit is its own rounding. -/
theorem nearestEven_of_dvd {u n : ℕ} (hu : 0 < u) (h : u ∣ n) : nearestEven u n = n / u := by
  unfold nearestEven
  rw [Nat.mod_eq_zero_of_dvd h, if_pos (by omega)]

/-! ### Rounding to a number of significant bits -/

variable {p n m : ℕ}

/-- The unit in the last place of `n`, in a format with `p` significant bits. -/
def ulp (p n : ℕ) : ℕ := 2 ^ (Nat.log 2 n + 1 - p)

/-- The value a format with `p` significant bits stores for `n`. -/
def toPrecision (p n : ℕ) : ℕ := nearestEven (ulp p n) n * ulp p n

theorem ulp_pos (p n : ℕ) : 0 < ulp p n := Nat.two_pow_pos _

/-- A multiple of the unit is stored exactly. -/
theorem toPrecision_of_dvd (h : ulp p n ∣ n) : toPrecision p n = n := by
  rw [toPrecision, nearestEven_of_dvd (ulp_pos p n) h, Nat.div_mul_cancel h]

/-- **Small integers are exact.** -/
theorem toPrecision_of_le (hp : 0 < p) (h : n ≤ 2 ^ p) : toPrecision p n = n := by
  refine toPrecision_of_dvd ?_
  rcases Nat.eq_zero_or_pos n with rfl | hn
  · exact Nat.dvd_zero _
  rcases h.lt_or_eq with hlt | rfl
  · have hexp : Nat.log 2 n + 1 - p = 0 := by
      have := Nat.log_lt_of_lt_pow hn.ne' hlt
      omega
    rw [ulp, hexp]
    exact one_dvd n
  · have hexp : Nat.log 2 (2 ^ p) + 1 - p = 1 := by
      rw [Nat.log_pow (by decide)]
      omega
    rw [ulp, hexp]
    exact pow_dvd_pow 2 hp

/-- The power of two below a number is representable, so rounding does not go below it. -/
theorem pow_log_le_toPrecision (hp : 0 < p) (hn : n ≠ 0) :
    2 ^ Nat.log 2 n ≤ toPrecision p n := by
  have hdvd : ulp p n ∣ 2 ^ Nat.log 2 n := pow_dvd_pow 2 (by omega)
  calc 2 ^ Nat.log 2 n = nearestEven (ulp p n) (2 ^ Nat.log 2 n) * ulp p n := by
        rw [nearestEven_of_dvd (ulp_pos p n) hdvd, Nat.div_mul_cancel hdvd]
    _ ≤ toPrecision p n :=
        Nat.mul_le_mul_right _ (nearestEven_mono _ (Nat.pow_log_le_self 2 hn))

/-- The power of two above a number is representable too. -/
theorem toPrecision_le_pow (p n : ℕ) : toPrecision p n ≤ 2 ^ (Nat.log 2 n + 1) := by
  have hdvd : ulp p n ∣ 2 ^ (Nat.log 2 n + 1) := pow_dvd_pow 2 (by omega)
  calc toPrecision p n
      ≤ nearestEven (ulp p n) (2 ^ (Nat.log 2 n + 1)) * ulp p n :=
        Nat.mul_le_mul_right _ (nearestEven_mono _ (Nat.lt_pow_succ_log_self (by decide) n).le)
    _ = 2 ^ (Nat.log 2 n + 1) := by
        rw [nearestEven_of_dvd (ulp_pos p n) hdvd, Nat.div_mul_cancel hdvd]

/-- **Rounding is monotone.** -/
theorem toPrecision_mono (hp : 0 < p) : Monotone (toPrecision p) := by
  intro n m hnm
  rcases Nat.eq_zero_or_pos n with rfl | hn
  · rw [toPrecision_of_le hp (Nat.zero_le _)]
    exact Nat.zero_le _
  have hm : m ≠ 0 := by omega
  rcases (Nat.log_mono_right (b := 2) hnm).lt_or_eq with hlt | heq
  · calc toPrecision p n ≤ 2 ^ (Nat.log 2 n + 1) := toPrecision_le_pow p n
      _ ≤ 2 ^ Nat.log 2 m := Nat.pow_le_pow_right (by decide) hlt
      _ ≤ toPrecision p m := pow_log_le_toPrecision hp hm
  · have hulp : ulp p n = ulp p m := by rw [ulp, ulp, heq]
    rw [toPrecision, toPrecision, hulp]
    exact Nat.mul_le_mul_right _ (nearestEven_mono _ hnm)

/-! ### Doubles -/

/-- The double nearest to an integer. -/
def ofInt : ℤ → ℤ
  | .ofNat n => toPrecision 53 n
  | .negSucc n => -(toPrecision 53 (n + 1) : ℕ)

theorem ofInt_natCast (n : ℕ) : ofInt n = toPrecision 53 n := rfl

/-- Integers up to `2 ^ 53` are exact. -/
theorem ofInt_of_le {z : ℤ} (h0 : 0 ≤ z) (h : z ≤ 2 ^ 53) : ofInt z = z := by
  obtain ⟨n, rfl⟩ := Int.eq_ofNat_of_zero_le h0
  rw [ofInt_natCast, toPrecision_of_le (by decide) (by exact_mod_cast h)]

/-- And so are their negatives. -/
theorem ofInt_of_abs_le {z : ℤ} (h : |z| ≤ 2 ^ 53) : ofInt z = z := by
  rcases z with n | n
  · exact ofInt_of_le (Int.natCast_nonneg n) ((le_abs_self _).trans h)
  · have hle : n + 1 ≤ 2 ^ 53 := by
      rw [abs_of_neg (Int.negSucc_lt_zero n)] at h
      omega
    rw [ofInt, toPrecision_of_le (by decide) hle]
    rfl

theorem ofInt_mono : Monotone ofInt := by
  intro y z hyz
  rcases y with n | n <;> rcases z with m | m
  · exact Int.ofNat_le.2 (toPrecision_mono (by decide) (Int.ofNat_le.1 hyz))
  · exact absurd ((Int.natCast_nonneg n).trans hyz) (Int.negSucc_not_nonneg m).1
  · exact (neg_nonpos.2 (Int.natCast_nonneg _)).trans (Int.natCast_nonneg _)
  · have hle : m + 1 ≤ n + 1 := by omega
    exact neg_le_neg (Int.ofNat_le.2 (toPrecision_mono (by decide) hle))

end Double
