import Mathlib.Algebra.Order.Ring.Star
import Mathlib.Data.Int.ConditionallyCompleteOrder
import Mathlib.Data.Int.Star
import Mathlib.Order.ConditionallyCompleteLattice.Basic
import Mathlib.Tactic.Linarith
import Mathlib.Tactic.NormNum
import Mathlib.Tactic.Positivity
import Mathlib.Tactic.Ring
import TaskQueue.Data.Word

/-!
# Retry delays

`backoff.go`: a delay that doubles with every failed attempt up to a ceiling, and the jitter put on
it. A `time.Duration` is an `int64` there and is one here, so that the arithmetic wraps as it does
in the source.

**Saturation.** The loop notices an overflow after the fact, by comparing the doubled value with the
old one. For a positive value that is sound and complete: twice the value either fits, or wraps to
something negative (`mul_two_of_lt`, `mul_two_lt_of_le`). So the loop followed by the final clamp is
one minimum over the unbounded integers (`clamp_double`).

**Randomness.** A random source is asked at most once, for a value below a bound. `rand.Int64N`
panics on a bound that is not positive, so a source is a partial function and a panic is `none`.
-/

namespace TaskQueue.Backoff

/-- `DefaultBackoffBase`: one second, in nanoseconds. -/
def defaultBackoffBase : Int64 := 1000000000

/-- `DefaultBackoffCap`: ten minutes, in nanoseconds. -/
def defaultBackoffCap : Int64 := 600000000000

/-- `randFunc`: a value in `[0, n)`; `none` is a panic. -/
abbrev RandFunc := Int64 → Option Int64

/-- `JitterFunc` -/
abbrev JitterFunc := Int64 → RandFunc → Option Int64

/-- `JitterNone` -/
def jitterNone : JitterFunc := fun d _ ↦ some d

/-- `JitterFull` -/
def jitterFull : JitterFunc := fun d rnd ↦ if d ≤ 0 then some 0 else rnd d

/-- `JitterEqual` -/
def jitterEqual : JitterFunc := fun d rnd ↦
  if d ≤ 0 then some 0
  else
    let half := d / 2
    (rnd (d - half)).map (half + ·)

/-- `Exponential`; `none` is nil. -/
structure Exponential where
  base : Int64
  cap : Int64
  jitter : Option JitterFunc
  rnd : Option RandFunc

/-- The doubling loop of `Next`, with the number of rounds left. -/
def double (ceiling : Int64) : ℕ → Int64 → Int64
  | 0, d => d
  | n + 1, d =>
    if ceiling ≤ d then d
    else
      let next := d * 2
      -- the doubling overflowed
      if next < d then ceiling else double ceiling n next

/-- The delay is brought down to the ceiling. -/
def clamp (ceiling d : Int64) : Int64 := if ceiling < d then ceiling else d

namespace Exponential

variable (e : Exponential)

/-- The effective ceiling. -/
def ceiling : Int64 := if e.cap ≤ 0 then defaultBackoffCap else e.cap

/-- The effective base: the configured or the default one, clamped to the ceiling. -/
def start : Int64 := clamp e.ceiling (if e.base ≤ 0 then defaultBackoffBase else e.base)

/-- The delay `Next` passes to the jitter function. -/
def delay (attempt : Int64) : Int64 :=
  let attempt := if attempt < 1 then 1 else attempt
  clamp e.ceiling (double e.ceiling (attempt - 1).toInt.toNat e.start)

/-- `Next`; `int64N` is the global source, for an `Exponential` that has none of its own. -/
def next (int64N : RandFunc) (attempt : Int64) : Option Int64 :=
  (e.jitter.getD jitterFull) (e.delay attempt) (e.rnd.getD int64N)

end Exponential

/-! ### The doubling loop -/

section

variable {ceiling d : Int64}

/-- Twice a positive value below `2 ^ 62` is exact. -/
theorem mul_two_of_lt (hd : 0 < d.toInt) (hfits : d.toInt < 2 ^ 62) :
    (d * 2).toInt = d.toInt * 2 := by
  rw [Int64.toInt_mul, show (2 : Int64).toInt = 2 from rfl]
  exact Word.bmod_of_fits (by omega) (by omega)

/-- Twice any other positive value wraps to a negative number. -/
theorem mul_two_lt_of_le (hover : 2 ^ 62 ≤ d.toInt) : (d * 2).toInt < d.toInt := by
  have hlt := d.toInt_lt
  rw [Int64.toInt_mul, show (2 : Int64).toInt = 2 from rfl,
    Word.bmod_of_overflow (by omega) (by omega)]
  omega

theorem toInt_clamp : (clamp ceiling d).toInt = min d.toInt ceiling.toInt := by
  rw [clamp]
  split_ifs with hlt
  · exact (min_eq_right (Int64.lt_iff_toInt_lt.1 hlt).le).symm
  · exact (min_eq_left (Int64.le_iff_toInt_le.1 (Int64.not_lt.1 hlt))).symm

/-- **The loop computes the exact power**, up to the ceiling. -/
theorem clamp_double (hd : 0 < d.toInt) (n : ℕ) :
    (clamp ceiling (double ceiling n d)).toInt = min (d.toInt * 2 ^ n) ceiling.toInt := by
  induction n generalizing d with
  | zero => rw [double, toInt_clamp, pow_zero, mul_one]
  | succ n ih =>
    have hgrow : d.toInt * 2 ≤ d.toInt * 2 ^ (n + 1) := by
      rw [pow_succ']
      have hone : (1 : ℤ) ≤ 2 ^ n := one_le_pow₀ (by norm_num)
      nlinarith
    simp only [double]
    split_ifs with hdone hover
    · have hle := Int64.le_iff_toInt_le.1 hdone
      rw [toInt_clamp, min_eq_right hle, min_eq_right (by omega)]
    · have hbig : 2 ^ 62 ≤ d.toInt := by
        by_contra hsmall
        have := Int64.lt_iff_toInt_lt.1 hover
        rw [mul_two_of_lt hd (by omega)] at this
        omega
      have hceil := ceiling.toInt_lt
      rw [toInt_clamp, min_self, min_eq_right (by omega)]
    · have hsmall : d.toInt < 2 ^ 62 := by
        by_contra hbig
        exact hover (Int64.lt_iff_toInt_lt.2 (mul_two_lt_of_le (by omega)))
      rw [ih (by rw [mul_two_of_lt hd hsmall]; omega), mul_two_of_lt hd hsmall, pow_succ',
        mul_assoc]

end

/-! ### The delay -/

namespace Exponential

variable {e : Exponential}

theorem ceiling_pos : 0 < e.ceiling.toInt := by
  rw [ceiling]
  split_ifs with hcap
  · decide
  · exact Int64.lt_iff_toInt_lt.1 (Int64.not_le.1 hcap)

theorem start_pos : 0 < e.start.toInt := by
  rw [start, toInt_clamp, lt_min_iff]
  refine ⟨?_, ceiling_pos⟩
  split_ifs with hbase
  · decide
  · exact Int64.lt_iff_toInt_lt.1 (Int64.not_le.1 hbase)

/-- The rounds of the loop, counted over the unbounded integers. -/
theorem toInt_attempt (attempt : Int64) :
    ((if attempt < 1 then 1 else attempt) - 1).toInt = max attempt.toInt 1 - 1 := by
  have hone : (1 : Int64).toInt = 1 := rfl
  split_ifs with hlt
  · have := Int64.lt_iff_toInt_lt.1 hlt
    rw [max_eq_right (by omega)]
    decide
  · have := Int64.le_iff_toInt_le.1 (Int64.not_lt.1 hlt)
    have hmax := attempt.toInt_lt
    rw [max_eq_left (by omega), Word.toInt_sub (by omega) (by omega), hone]

/-- **The delay in closed form.** -/
theorem toInt_delay (attempt : Int64) : (e.delay attempt).toInt =
    min (e.start.toInt * 2 ^ (max attempt.toInt 1 - 1).toNat) e.ceiling.toInt := by
  simp only [delay]
  rw [clamp_double start_pos, toInt_attempt]

theorem delay_pos (attempt : Int64) : 0 < (e.delay attempt).toInt := by
  rw [toInt_delay, lt_min_iff]
  exact ⟨mul_pos start_pos (by positivity), ceiling_pos⟩

theorem delay_mono {attempt attempt' : Int64} (hle : attempt ≤ attempt') :
    e.delay attempt ≤ e.delay attempt' := by
  have hint := Int64.le_iff_toInt_le.1 hle
  rw [Int64.le_iff_toInt_le, toInt_delay, toInt_delay]
  refine min_le_min_right _ (mul_le_mul_of_nonneg_left ?_ start_pos.le)
  exact pow_le_pow_right₀ (by norm_num) (Int.toNat_le_toNat (by omega))

end Exponential

/-! ### Jitter -/

/-- What a random source promises: a value in `[0, n)` for every positive `n`. On any other `n` it
may do anything, and `rand.Int64N` panics. -/
def Sound (rnd : RandFunc) : Prop := ∀ n, 0 < n → ∃ r, rnd n = some r ∧ 0 ≤ r ∧ r < n

section

variable {d : Int64} {rnd : RandFunc}

theorem jitterFull_mem (hd : 0 < d) (hrnd : Sound rnd) :
    ∃ r, jitterFull d rnd = some r ∧ 0 ≤ r ∧ r < d := by
  rw [jitterFull, if_neg (Int64.not_le.2 hd)]
  exact hrnd d hd

theorem jitterEqual_mem (hd : 0 < d) (hrnd : Sound rnd) :
    ∃ r, jitterEqual d rnd = some r ∧ d.toInt / 2 ≤ r.toInt ∧ r < d := by
  have hpos : 0 < d.toInt := Int64.lt_iff_toInt_lt.1 hd
  have hlt := d.toInt_lt
  have hhalf : (d / 2).toInt = d.toInt / 2 := by
    rw [Int64.toInt_div_of_ne_right _ _ (by decide), show (2 : Int64).toInt = 2 from rfl,
      Int.tdiv_eq_ediv_of_nonneg hpos.le]
  have hrest : (d - d / 2).toInt = d.toInt - d.toInt / 2 := by
    rw [Word.toInt_sub (by omega) (by omega), hhalf]
  obtain ⟨r, hr, hnonneg, hbelow⟩ := hrnd (d - d / 2) (by
    rw [Int64.lt_iff_toInt_lt, hrest]
    exact (by omega : (0 : ℤ) < d.toInt - d.toInt / 2))
  have hr0 : 0 ≤ r.toInt := Int64.le_iff_toInt_le.1 hnonneg
  have hr1 : r.toInt < d.toInt - d.toInt / 2 := by
    rw [← hrest]
    exact Int64.lt_iff_toInt_lt.1 hbelow
  have hsum : (d / 2 + r).toInt = d.toInt / 2 + r.toInt := by
    rw [Word.toInt_add (by omega) (by omega), hhalf]
  refine ⟨d / 2 + r, ?_, ?_, ?_⟩
  · simp only [jitterEqual, if_neg (Int64.not_le.2 hd), hr, Option.map_some]
  · omega
  · rw [Int64.lt_iff_toInt_lt, hsum]
    omega

end

/-! ### The main theorem -/

/-- **Backoff saturates exactly.** For every configuration and every attempt, what `Next` passes to
the jitter function is the exact power, cut off at the ceiling: positive, never above the ceiling
and nondecreasing in the attempt. And whatever sound source it is given, the result of each of the
three jitter functions is where it should be; since nothing is assumed of the source at bounds that
are not positive, it is never asked for such a bound. -/
theorem backoff_saturates (e : Exponential) (int64N : RandFunc) (attempt : Int64) :
    e.next int64N attempt = (e.jitter.getD jitterFull) (e.delay attempt) (e.rnd.getD int64N) ∧
    (e.delay attempt).toInt =
      min (e.start.toInt * 2 ^ (max attempt.toInt 1 - 1).toNat) e.ceiling.toInt ∧
    0 < e.delay attempt ∧ e.delay attempt ≤ e.ceiling ∧
    (∀ attempt', attempt ≤ attempt' → e.delay attempt ≤ e.delay attempt') ∧
    (Sound (e.rnd.getD int64N) →
      (e.jitter = none ∨ e.jitter = some jitterFull →
        ∃ r, e.next int64N attempt = some r ∧ 0 ≤ r ∧ r < e.delay attempt) ∧
      (e.jitter = some jitterEqual → ∃ r, e.next int64N attempt = some r ∧
        (e.delay attempt).toInt / 2 ≤ r.toInt ∧ r < e.delay attempt) ∧
      (e.jitter = some jitterNone → e.next int64N attempt = some (e.delay attempt))) := by
  have hpos : 0 < e.delay attempt := Int64.lt_iff_toInt_lt.2 (Exponential.delay_pos attempt)
  refine ⟨by rw [Exponential.next], Exponential.toInt_delay attempt, hpos, ?_,
    fun _ ↦ Exponential.delay_mono, fun hrnd ↦ ⟨?_, ?_, ?_⟩⟩
  · rw [Int64.le_iff_toInt_le, Exponential.toInt_delay]
    exact min_le_right _ _
  · intro hjitter
    have hfull : e.jitter.getD jitterFull = jitterFull := by
      rcases hjitter with hjitter | hjitter <;> rw [hjitter] <;> rfl
    rw [Exponential.next, hfull]
    exact jitterFull_mem hpos hrnd
  · intro hjitter
    rw [Exponential.next, hjitter, Option.getD_some]
    exact jitterEqual_mem hpos hrnd
  · intro hjitter
    rw [Exponential.next, hjitter, Option.getD_some, jitterNone]

/-- With a ceiling near `2 ^ 63` the doubling overflows at the 63rd attempt: the delay is the
ceiling, and a source that panics on every bound that is not positive draws from all of it. -/
theorem backoff_saturates_overflow :
    ∃ e : Exponential, ∃ rnd : RandFunc, rnd 0 = none ∧ Sound rnd ∧
      e.delay 62 = 2305843009213693952 ∧ e.delay 64 = 9223372036854775807 ∧
      ∃ r, e.next rnd 64 = some r ∧ 0 ≤ r ∧ r < e.delay 64 := by
  let e : Exponential := ⟨1, 9223372036854775807, none, none⟩
  let rnd : RandFunc := fun n ↦ if 0 < n then some (n - 1) else none
  have hsound : Sound rnd := by
    intro n hn
    have hpos : 0 < n.toInt := Int64.lt_iff_toInt_lt.1 hn
    have hlt := n.toInt_lt
    have hone : (n - 1).toInt = n.toInt - 1 := Word.toInt_sub
      (show -2 ^ 63 ≤ n.toInt - 1 by omega) (show n.toInt - 1 < 2 ^ 63 by omega)
    refine ⟨n - 1, if_pos hn, ?_, ?_⟩
    · rw [Int64.le_iff_toInt_le, hone]
      exact (by omega : (0 : ℤ) ≤ n.toInt - 1)
    · rw [Int64.lt_iff_toInt_lt, hone]
      omega
  exact ⟨e, rnd, rfl, hsound, by decide, by decide,
    ((backoff_saturates e rnd 64).2.2.2.2.2 hsound).1 (.inl rfl)⟩

end TaskQueue.Backoff
