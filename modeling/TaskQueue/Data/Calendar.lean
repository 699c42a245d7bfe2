import Mathlib.Algebra.EuclideanDomain.Int
import Mathlib.Data.Int.ConditionallyCompleteOrder
import Mathlib.Order.ConditionallyCompleteLattice.Basic
import Mathlib.Order.Monotone.Basic
import Mathlib.Tactic.IntervalCases

/-!
# The proleptic Gregorian calendar

Days are numbered from 1 January of year 1, which is day 0; years, months and days are integers, and
nothing is bounded below. `dayNumber` takes a year, a month and a day to a number and, like the
usual library functions, accepts months and days out of range and **normalises** them; `date` is the
way back. The two are inverse to each other on the dates of the calendar (`dayNumber_date`,
`date_dayNumber`).

A year begins `yearStart` days after day 0, and the months of a year begin at the offsets
`monthStart`. Both are increasing, so the year and the month of a day are characterised by the two
starts the day lies between; the closed forms `yearOf` and `monthOf` are only looked into to prove
that.
-/

namespace Calendar

/-- A date. -/
structure Date where
  year : ℤ
  month : ℤ
  day : ℤ
  deriving DecidableEq

/-- Whether the year has a 29 February. -/
def isLeap (y : ℤ) : Bool := y % 4 = 0 ∧ (y % 100 ≠ 0 ∨ y % 400 = 0)

/-- The number of leap days in a year. -/
def leapDays (y : ℤ) : ℤ := if isLeap y then 1 else 0

/-- The number of 1 January of a year. -/
def yearStart (y : ℤ) : ℤ := 365 * (y - 1) + (y - 1) / 4 - (y - 1) / 100 + (y - 1) / 400

/-- The days before the month with this index (January is 0) in a year with `leap` leap days; index
12 stands for the next January. -/
def monthStart (leap : ℤ) (m : ℕ) : ℤ :=
  [0, 31, 59 + leap, 90 + leap, 120 + leap, 151 + leap, 181 + leap, 212 + leap, 243 + leap,
    273 + leap, 304 + leap, 334 + leap].getD m (365 + leap)

/-- The number of a day; a month out of range counts on into other years, and a day out of range
into other months. -/
def dayNumber (year month day : ℤ) : ℤ :=
  let y := year + (month - 1) / 12
  yearStart y + monthStart (leapDays y) ((month - 1) % 12).toNat + (day - 1)

/-- The year of a day: whole cycles of 400, 100, 4 and 1 years. The last day of a cycle of 400 or of
4 years does not begin another century or year. -/
def yearOf (n : ℤ) : ℤ :=
  let d := n % 146097
  let c := d / 36524 - d / 36524 / 4
  let d := d - 36524 * c
  let q := d / 1461
  let d := d - 1461 * q
  let e := d / 365 - d / 365 / 4
  400 * (n / 146097) + 100 * c + 4 * q + e + 1

/-- The index of the month that the day with offset `d` in its year lies in: the last one that has
begun. -/
def monthOf (leap d : ℤ) : ℕ := Nat.findGreatest (fun m ↦ monthStart leap m ≤ d) 11

/-- The date of a day. -/
def date (n : ℤ) : Date :=
  let y := yearOf n
  let m := monthOf (leapDays y) (n - yearStart y)
  ⟨y, m + 1, n - yearStart y - monthStart (leapDays y) m + 1⟩

/-- The day of the week, counted from Sunday. -/
def weekday (n : ℤ) : ℤ := (n + 1) % 7

/-! ### Years -/

theorem leapDays_eq (y : ℤ) : leapDays y = 0 ∨ leapDays y = 1 := by
  unfold leapDays
  split
  · exact .inr rfl
  · exact .inl rfl

theorem yearStart_succ (y : ℤ) : yearStart (y + 1) = yearStart y + 365 + leapDays y := by
  unfold yearStart leapDays isLeap
  split_ifs with h <;> simp only [decide_eq_true_eq] at h <;> omega

theorem yearStart_strictMono : StrictMono yearStart := by
  refine strictMono_int_of_lt_succ fun y ↦ ?_
  rcases leapDays_eq y with h | h <;> rw [yearStart_succ, h] <;> omega

/-- The start of a year, cycle by cycle. -/
theorem yearStart_cycles {a c q e : ℤ} (hc : 0 ≤ c ∧ c ≤ 3) (hq : 0 ≤ q ∧ q ≤ 24)
    (he : 0 ≤ e ∧ e ≤ 3) :
    yearStart (400 * a + 100 * c + 4 * q + e + 1) =
      146097 * a + 36524 * c + 1461 * q + 365 * e := by
  unfold yearStart
  omega

/-- The end of a year, cycle by cycle; a year that closes a cycle is as long as is left of it. -/
theorem yearStart_cycles_succ {a c q e d : ℤ} (hc : 0 ≤ c ∧ c ≤ 3) (hq : 0 ≤ q ∧ q ≤ 24)
    (he : 0 ≤ e ∧ e ≤ 3) (hd : d ≤ 365) (hyear : e < 3 → d < 365)
    (hcentury : c < 3 → 1461 * q + 365 * e + d < 36524) :
    146097 * a + 36524 * c + 1461 * q + 365 * e + d <
      yearStart (400 * a + 100 * c + 4 * q + e + 1 + 1) := by
  unfold yearStart
  omega

theorem yearStart_yearOf (n : ℤ) :
    yearStart (yearOf n) ≤ n ∧ n < yearStart (yearOf n + 1) := by
  unfold yearOf
  dsimp only
  generalize hd : n % 146097 = d
  generalize hc : d / 36524 - d / 36524 / 4 = c
  generalize hd' : d - 36524 * c = d'
  generalize hq : d' / 1461 = q
  generalize hd'' : d' - 1461 * q = d''
  generalize he : d'' / 365 - d'' / 365 / 4 = e
  have hcc : 0 ≤ c ∧ c ≤ 3 ∧ 0 ≤ d' ∧ d' ≤ 36524 ∧ (c < 3 → d' < 36524) := by omega
  have hqq : 0 ≤ q ∧ q ≤ 24 ∧ 0 ≤ d'' ∧ d'' ≤ 1460 := by omega
  have hee : 0 ≤ e ∧ e ≤ 3 ∧ 365 * e ≤ d'' ∧ d'' ≤ 365 * e + 365 ∧
    (e < 3 → d'' < 365 * e + 365) := by omega
  have hn : n = 146097 * (n / 146097) + 36524 * c + 1461 * q + 365 * e + (d'' - 365 * e) := by omega
  constructor
  · rw [yearStart_cycles (by omega) (by omega) (by omega)]
    omega
  · have := yearStart_cycles_succ (a := n / 146097) (c := c) (q := q) (e := e)
      (d := d'' - 365 * e) (by omega) (by omega) (by omega) (by omega) (by omega) (by omega)
    omega

/-- A day lies in the only year it lies in. -/
theorem yearOf_eq {n y : ℤ} (hle : yearStart y ≤ n) (hlt : n < yearStart (y + 1)) :
    yearOf n = y := by
  obtain ⟨hle', hlt'⟩ := yearStart_yearOf n
  have h₁ : yearOf n < y + 1 := yearStart_strictMono.lt_iff_lt.1 (hle'.trans_lt hlt)
  have h₂ : y < yearOf n + 1 := yearStart_strictMono.lt_iff_lt.1 (hle.trans_lt hlt')
  omega

/-! ### Months -/

section

variable {leap d : ℤ} (hleap : leap = 0 ∨ leap = 1)

include hleap

theorem monthStart_lt_succ {m : ℕ} (hm : m < 12) : monthStart leap m < monthStart leap (m + 1) := by
  interval_cases m <;> simp [monthStart]; omega

omit hleap in
theorem monthStart_monthOf (h0 : 0 ≤ d) (hd : d < 365 + leap) :
    monthOf leap d < 12 ∧ monthStart leap (monthOf leap d) ≤ d ∧
      d < monthStart leap (monthOf leap d + 1) := by
  have hle : monthOf leap d ≤ 11 := Nat.findGreatest_le 11
  refine ⟨by omega, Nat.findGreatest_spec (P := fun m ↦ monthStart leap m ≤ d)
    (Nat.zero_le 11) h0, ?_⟩
  rcases hle.lt_or_eq with hlt | heq
  · exact not_le.1 (Nat.findGreatest_is_greatest (Nat.lt_succ_self _) hlt)
  · rw [heq]
    exact hd

theorem monthStart_mono {m m' : ℕ} (hle : m ≤ m') (hm' : m' ≤ 12) :
    monthStart leap m ≤ monthStart leap m' := by
  induction m', hle using Nat.le_induction with
  | base => exact le_rfl
  | succ k _ ih => exact (ih (by omega)).trans (monthStart_lt_succ hleap (by omega)).le

/-- A day lies in the only month of its year it lies in. -/
theorem monthOf_eq {m : ℕ} (hm : m < 12) (hle : monthStart leap m ≤ d)
    (hlt : d < monthStart leap (m + 1)) : monthOf leap d = m := by
  have h0 : 0 ≤ d := (monthStart_mono hleap (Nat.zero_le m) hm.le).trans hle
  have hd : d < 365 + leap := hlt.trans_le (monthStart_mono hleap (by omega : m + 1 ≤ 12) le_rfl)
  obtain ⟨hlt₁, hle₂, hlt₂⟩ := monthStart_monthOf h0 hd
  by_contra hne
  rcases Nat.lt_or_gt_of_ne hne with h | h
  · have := monthStart_mono hleap (by omega : monthOf leap d + 1 ≤ m) hm.le
    omega
  · have := monthStart_mono hleap (by omega : m + 1 ≤ monthOf leap d) hlt₁.le
    omega

end

/-! ### Dates -/

/-- A date of the calendar. -/
structure Date.Valid (w : Date) : Prop where
  month_pos : 1 ≤ w.month
  month_le : w.month ≤ 12
  day_pos : 1 ≤ w.day
  day_lt : w.day ≤ dayNumber w.year (w.month + 1) 1 - dayNumber w.year w.month 1

/-- The number of a day in a month that is in range. -/
theorem dayNumber_eq {year day : ℤ} {m : ℕ} (hm : m < 12) :
    dayNumber year (m + 1) day = yearStart year + monthStart (leapDays year) m + (day - 1) := by
  have hyear : year + ((m : ℤ) + 1 - 1) / 12 = year := by omega
  have hmonth : (((m : ℤ) + 1 - 1) % 12).toNat = m := by omega
  rw [dayNumber, hyear, hmonth]

/-- The first day after a month that is in range. -/
theorem dayNumber_next {year : ℤ} {m : ℕ} (hm : m < 12) :
    dayNumber year (m + 1 + 1) 1 = yearStart year + monthStart (leapDays year) (m + 1) := by
  rcases Nat.lt_or_ge (m + 1) 12 with h | h
  · have hnext : dayNumber year ((m + 1 : ℕ) + 1) 1 =
        yearStart year + monthStart (leapDays year) (m + 1) + (1 - 1) := dayNumber_eq h
    push_cast at hnext
    rw [hnext]
    omega
  · obtain rfl : m = 11 := by omega
    have hyear : year + (((11 : ℕ) : ℤ) + 1 + 1 - 1) / 12 = year + 1 := by omega
    rw [dayNumber, hyear, yearStart_succ]
    simp [monthStart]
    omega

/-- Where the date of a day comes from. -/
theorem date_spec (n : ℤ) : ∃ m : ℕ, m < 12 ∧ (date n).month = m + 1 ∧
    (date n).day = n - yearStart (date n).year - monthStart (leapDays (date n).year) m + 1 ∧
    monthStart (leapDays (date n).year) m ≤ n - yearStart (date n).year ∧
    n - yearStart (date n).year < monthStart (leapDays (date n).year) (m + 1) := by
  obtain ⟨hle, hlt⟩ := yearStart_yearOf n
  rw [yearStart_succ] at hlt
  obtain ⟨hm, hle', hlt'⟩ := monthStart_monthOf (by omega : 0 ≤ n - yearStart (yearOf n))
    (by omega : n - yearStart (yearOf n) < 365 + leapDays (yearOf n))
  exact ⟨_, hm, rfl, rfl, hle', hlt'⟩

/-- **A day has its number.** -/
theorem dayNumber_date (n : ℤ) :
    dayNumber (date n).year (date n).month (date n).day = n := by
  obtain ⟨m, hm, hmonth, hday, -, -⟩ := date_spec n
  rw [hmonth, hday, dayNumber_eq hm]
  omega

/-- **A date of the calendar is the date of its number.** -/
theorem date_dayNumber {w : Date} (h : w.Valid) : date (dayNumber w.year w.month w.day) = w := by
  obtain ⟨year, month, day⟩ := w
  obtain ⟨m, rfl⟩ : ∃ m : ℕ, month = m + 1 := by
    have hpos := h.month_pos
    exact ⟨(month - 1).toNat, by dsimp only at hpos; omega⟩
  have hm : m < 12 := by
    have hle := h.month_le
    dsimp only at hle
    omega
  have hday := h.day_lt
  have hpos := h.day_pos
  dsimp only at hday hpos ⊢
  rw [dayNumber_next hm, dayNumber_eq hm] at hday
  rw [dayNumber_eq hm]
  have hleap := leapDays_eq year
  have hfirst : 0 ≤ monthStart (leapDays year) m := monthStart_mono hleap (Nat.zero_le m) hm.le
  have hlast : monthStart (leapDays year) (m + 1) ≤ 365 + leapDays year :=
    monthStart_mono hleap (by omega : m + 1 ≤ 12) le_rfl
  have hyear : yearOf (yearStart year + monthStart (leapDays year) m + (day - 1)) = year :=
    yearOf_eq (by omega) (by rw [yearStart_succ]; omega)
  have hmonth : monthOf (leapDays year)
      (yearStart year + monthStart (leapDays year) m + (day - 1) - yearStart year) = m :=
    monthOf_eq hleap hm (by omega) (by omega)
  simp only [date, hyear, hmonth, Date.mk.injEq, true_and]
  omega

/-- The date of a day is a date of the calendar. -/
theorem valid_date (n : ℤ) : (date n).Valid := by
  obtain ⟨m, hm, hmonth, hday, hle, hlt⟩ := date_spec n
  refine ⟨by omega, by omega, by omega, ?_⟩
  rw [hmonth, dayNumber_next hm, dayNumber_eq hm]
  omega

/-- A day is over before the next month begins. -/
theorem lt_next_month (n : ℤ) : n < dayNumber (date n).year ((date n).month + 1) 1 := by
  obtain ⟨m, hm, hmonth, -, -, hlt⟩ := date_spec n
  rw [hmonth, dayNumber_next hm]
  omega

/-- The days up to the next month are in the same month. -/
theorem same_month {n n' : ℤ} (hle : n ≤ n')
    (hlt : n' < dayNumber (date n).year ((date n).month + 1) 1) :
    (date n').year = (date n).year ∧ (date n').month = (date n).month := by
  obtain ⟨m, hm, hmonth, -, hfirst, -⟩ := date_spec n
  rw [hmonth, dayNumber_next hm] at hlt
  have hleap := leapDays_eq (date n).year
  have h0 : 0 ≤ monthStart (leapDays (date n).year) m := monthStart_mono hleap (Nat.zero_le m) hm.le
  have hlast : monthStart (leapDays (date n).year) (m + 1) ≤ 365 + leapDays (date n).year :=
    monthStart_mono hleap (by omega : m + 1 ≤ 12) le_rfl
  have hyear : yearOf n' = (date n).year :=
    yearOf_eq (by omega) (by rw [yearStart_succ]; omega)
  have hmonth' : monthOf (leapDays (date n).year) (n' - yearStart (date n).year) = m :=
    monthOf_eq hleap hm (by omega) (by omega)
  refine ⟨hyear, ?_⟩
  rw [hmonth, ← hmonth', ← hyear]
  rfl

/-- The first of a month is a date of the calendar. -/
theorem Date.Valid.first {w : Date} (h : w.Valid) : Date.Valid ⟨w.year, w.month, 1⟩ :=
  ⟨h.month_pos, h.month_le, le_rfl, h.day_pos.trans h.day_lt⟩

/-! ### The lengths of months -/

/-- The number of days of the month with this index in a year with `leap` leap days. -/
def monthLength (leap : ℤ) (m : ℕ) : ℤ := monthStart leap (m + 1) - monthStart leap m

theorem monthLength_le {leap : ℤ} (hleap : leap = 0 ∨ leap = 1) {m : ℕ} (hm : m < 12) :
    28 ≤ monthLength 0 m ∧ monthLength 0 m ≤ monthLength leap m := by
  interval_cases m <;> simp [monthLength, monthStart]; omega

theorem monthLength_le_31 {leap : ℤ} (hleap : leap = 0 ∨ leap = 1) {m : ℕ} (hm : m < 12) :
    monthLength leap m ≤ 31 := by
  interval_cases m <;> simp [monthLength, monthStart]; omega

theorem valid_iff {year day : ℤ} {m : ℕ} (hm : m < 12) :
    Date.Valid ⟨year, m + 1, day⟩ ↔ 1 ≤ day ∧ day ≤ monthLength (leapDays year) m := by
  have hlength : dayNumber year (m + 1 + 1) 1 - dayNumber year (m + 1) 1 =
      monthLength (leapDays year) m := by
    rw [dayNumber_next hm, dayNumber_eq hm, monthLength]
    omega
  constructor
  · exact fun h ↦ ⟨h.day_pos, h.day_lt.trans_eq hlength⟩
  · intro h
    exact ⟨show 1 ≤ (m : ℤ) + 1 by omega, show (m : ℤ) + 1 ≤ 12 by omega, h.1,
      h.2.trans_eq hlength.symm⟩

/-- The next month begins 28 to 31 days after this one. -/
theorem next_month_mem (n : ℤ) :
    dayNumber (date n).year (date n).month 1 + 28 ≤
        dayNumber (date n).year ((date n).month + 1) 1 ∧
      dayNumber (date n).year ((date n).month + 1) 1 ≤
        dayNumber (date n).year (date n).month 1 + 31 := by
  obtain ⟨m, hm, hmonth, -⟩ := date_spec n
  have hleap := leapDays_eq (date n).year
  have hshort := monthLength_le hleap hm
  have hlong := monthLength_le_31 hleap hm
  rw [monthLength, monthLength] at hshort
  rw [monthLength] at hlong
  rw [hmonth, dayNumber_next hm, dayNumber_eq hm]
  omega

/-- **A day that a common year does not have** is 29 February of a leap year. -/
theorem leap_day {year day : ℤ} {m : ℕ} (hm : m < 12) (hvalid : Date.Valid ⟨year, m + 1, day⟩)
    (hlt : monthLength 0 m < day) : isLeap year = true ∧ m = 1 ∧ day = 29 := by
  have hle := ((valid_iff hm).1 hvalid).2
  rcases hleap : isLeap year with - | -
  · rw [leapDays, if_neg (by simp [hleap])] at hle
    omega
  · rw [leapDays, if_pos hleap] at hle
    interval_cases m <;> simp [monthLength, monthStart] at hle hlt ⊢ <;> omega

/-- The days of a year. -/
theorem Date.Valid.dayNumber_mem {w : Date} (h : w.Valid) :
    yearStart w.year ≤ dayNumber w.year w.month w.day ∧
      dayNumber w.year w.month w.day < yearStart (w.year + 1) := by
  have hyear : yearOf (dayNumber w.year w.month w.day) = w.year :=
    congrArg Date.year (date_dayNumber h)
  have hmem := yearStart_yearOf (dayNumber w.year w.month w.day)
  rwa [hyear] at hmem

/-- Every day of the week comes within seven days. -/
theorem exists_weekday_eq (n : ℤ) {k : ℤ} (h0 : 0 ≤ k) (h7 : k < 7) :
    ∃ j, 0 ≤ j ∧ j < 7 ∧ weekday (n + j) = k := by
  refine ⟨(k - weekday n) % 7, by omega, by omega, ?_⟩
  unfold weekday
  omega

/-- A day later in a month has a number as much later. -/
theorem dayNumber_add (year month day k : ℤ) :
    dayNumber year month (day + k) = dayNumber year month day + k := by
  simp only [dayNumber]
  omega

example : date 719162 = ⟨1970, 1, 1⟩ := by decide

end Calendar
