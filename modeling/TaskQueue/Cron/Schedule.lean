import Mathlib.Algebra.Order.Ring.Star
import Mathlib.Data.Int.Star
import Mathlib.Tactic.Linarith
import Mathlib.Tactic.Ring
import TaskQueue.Data.Calendar
import TaskQueue.Job

/-!
# Cron schedules

`Schedule` of `internal/cron/cron.go` and its `Next`. A schedule is five bit masks and two flags, or
a period that bypasses them; `Parse` returns no other values, and all that is said here holds for
every mask.

**Time zones.** The search of `Next` reads the wall clock of the location of its argument and goes
back from a wall clock to an instant by `time.Date`. A `Location` is those two functions; `utc` is
the one the schedulers run in.

**Termination.** The search moves on by whole months, days, hours or minutes until it finds a match
or reaches its limit. In UTC every round goes strictly forward (`lt_of_round`), which is why the
loop ends, and why a fire time is strictly later than the time it was asked for (`lt_next`).
-/

namespace TaskQueue.Cron

open Calendar (dayNumber weekday)

/-- One second. -/
def second : Duration := 10 ^ 9

/-- One minute. -/
def minute : Duration := 60 * 10 ^ 9

/-- One day. -/
def day : Duration := 86400 * 10 ^ 9

/-- How far `Next` looks before it declares a specification unsatisfiable. -/
def searchLimit : Duration := 5 * 365 * 24 * hour

/-! ### Wall clocks -/

/-- What a wall clock and a calendar show. -/
structure Wall where
  year : ℤ
  month : ℤ
  day : ℤ
  hour : ℤ
  minute : ℤ
  second : ℤ
  nanosecond : ℤ

/-- `t.Weekday()`, with Sunday as 0. -/
def Wall.weekday (w : Wall) : ℤ := Calendar.weekday (dayNumber w.year w.month w.day)

/-- A time zone: what its wall clocks show at an instant, and `time.Date`. -/
structure Location where
  clock : Time → Wall
  date : Wall → Time

namespace Location

/-- The number of 1 January 1970 in the calendar. -/
def unixDay : ℤ := 719162

/-- UTC. -/
def utc : Location where
  clock t :=
    let d := Calendar.date (t / Cron.day + unixDay)
    let r := t % Cron.day
    ⟨d.year, d.month, d.day, r / TaskQueue.hour, r % TaskQueue.hour / Cron.minute,
      r % Cron.minute / Cron.second, r % Cron.second⟩
  date w :=
    (dayNumber w.year w.month w.day - unixDay) * Cron.day + w.hour * TaskQueue.hour +
      w.minute * Cron.minute + w.second * Cron.second + w.nanosecond

/-- `t.AddDate` -/
def addDate (loc : Location) (t : Time) (years months days : ℤ) : Time :=
  let w := loc.clock t
  loc.date { w with
    year := w.year + years
    month := w.month + months
    day := w.day + days }

end Location

/-- The same hour, from its first instant on. -/
def Wall.startOfHour (w : Wall) : Wall := { w with minute := 0, second := 0, nanosecond := 0 }

/-- The same day, from its first instant on. -/
def Wall.startOfDay (w : Wall) : Wall := { w.startOfHour with hour := 0 }

/-- The same month, from its first instant on. -/
def Wall.startOfMonth (w : Wall) : Wall := { w.startOfDay with day := 1 }

/-! ### Schedules -/

/-- A parsed cron specification. -/
structure Schedule where
  /-- bits 0-59 -/
  minute : BitVec 64
  /-- bits 0-23 -/
  hour : BitVec 64
  /-- bits 1-31 -/
  dom : BitVec 64
  /-- bits 1-12 -/
  month : BitVec 64
  /-- bits 0-6 -/
  dow : BitVec 64
  domStar : Bool
  dowStar : Bool
  /-- Set only by the `@every` descriptor. -/
  every : Duration

def bitSet (mask : BitVec 64) (v : ℕ) : Bool :=
  if 63 < v then false else mask &&& (1#64 <<< v) != 0#64

namespace Schedule

variable (s : Schedule)

/-- The day-of-month / day-of-week rule: when both day fields are restricted they are or-ed. -/
def dayMatches (w : Wall) : Bool :=
  let domOK := bitSet s.dom w.day.toNat
  let dowOK := bitSet s.dow w.weekday.toNat
  match s.domStar, s.dowStar with
  | true, true => true
  | true, false => dowOK
  | false, true => domOK
  | false, false => domOK || dowOK

/-- One round of the search: where it continues, or `none` if the schedule fires at `t`. -/
def round (loc : Location) (t : Time) : Option Time :=
  let w := loc.clock t
  if !bitSet s.month w.month.toNat then
    -- the first instant of the next month
    some (loc.addDate (loc.date w.startOfMonth) 0 1 0)
  else if !s.dayMatches w then some (loc.addDate (loc.date w.startOfDay) 0 0 1)
  else if !bitSet s.hour w.hour.toNat then some (loc.date w.startOfHour + TaskQueue.hour)
  else if !bitSet s.minute w.minute.toNat then some (t + Cron.minute)
  else none

end Schedule

/-! ### The search goes forward -/

namespace Location

/-- The first instant of a day shows the date of that day. -/
theorem utc_clock_date {w : Wall} (hvalid : Calendar.Date.Valid ⟨w.year, w.month, w.day⟩) :
    utc.clock (utc.date w.startOfDay) = w.startOfDay := by
  have hdate := Calendar.date_dayNumber hvalid
  have hstart : utc.date w.startOfDay =
      (dayNumber w.year w.month w.day - unixDay) * Cron.day := by
    simp [utc, Wall.startOfDay, Wall.startOfHour]
  have hpos : Cron.day ≠ 0 := by decide
  have hdiv : utc.date w.startOfDay / Cron.day + unixDay = dayNumber w.year w.month w.day := by
    rw [hstart, Int.mul_ediv_cancel _ hpos, sub_add_cancel]
  have hmod : utc.date w.startOfDay % Cron.day = 0 := by
    rw [hstart, Int.mul_emod_left]
  show Wall.mk _ _ _ _ _ _ _ = _
  rw [hdiv, hmod, hdate]
  rfl

end Location

namespace Schedule

open Location

variable {s : Schedule} {t t' limit : ℤ}

/-- The day after the one that `t` lies in begins later than `t`. -/
theorem lt_day {n : ℤ} (hn : t / Cron.day + unixDay < n) : t < (n - unixDay) * Cron.day := by
  have hpos : 0 < Cron.day := by decide
  have hle : t / Cron.day + 1 ≤ n - unixDay := by omega
  calc t < (t / Cron.day + 1) * Cron.day := Int.lt_ediv_add_one_mul_self t hpos
    _ ≤ (n - unixDay) * Cron.day := mul_le_mul_of_nonneg_right hle hpos.le

/-- **What a round does**, in UTC: it goes on to the first instant of the next month, day or hour,
or to the next minute. -/
theorem round_cases (hround : s.round utc t = some t') :
    bitSet s.month (utc.clock t).month.toNat = false ∧
      t' = (dayNumber (utc.clock t).year ((utc.clock t).month + 1) 1 - unixDay) * Cron.day ∨
    s.dayMatches (utc.clock t) = false ∧ t' = (t / Cron.day + 1) * Cron.day ∨
    bitSet s.hour (utc.clock t).hour.toNat = false ∧
      t' = (t / TaskQueue.hour + 1) * TaskQueue.hour ∨
    bitSet s.minute (utc.clock t).minute.toNat = false ∧ t' = t + Cron.minute := by
  have hday : dayNumber (utc.clock t).year (utc.clock t).month (utc.clock t).day =
      t / Cron.day + unixDay := Calendar.dayNumber_date _
  have hhour : (utc.clock t).hour = t % Cron.day / TaskQueue.hour := rfl
  have hvalid : Calendar.Date.Valid
      ⟨(utc.clock t).year, (utc.clock t).month, (utc.clock t).day⟩ := Calendar.valid_date _
  unfold round at hround
  generalize utc.clock t = w at hround hday hhour hvalid ⊢
  dsimp only at hround
  split_ifs at hround with hmonth hdays hhours hminutes
  · refine .inl ⟨by simpa using hmonth, ?_⟩
    have hfirst : utc.clock (utc.date w.startOfMonth) = w.startOfMonth :=
      utc_clock_date (w := w.startOfMonth) hvalid.first
    rw [← Option.some.inj hround, addDate, hfirst]
    simp [utc, Wall.startOfMonth, Wall.startOfDay, Wall.startOfHour]
  · refine .inr (.inl ⟨by simpa using hdays, ?_⟩)
    have hnext : dayNumber w.year w.month (w.day + 1) - unixDay = t / Cron.day + 1 := by
      rw [Calendar.dayNumber_add, hday]
      ring
    rw [← Option.some.inj hround, addDate, utc_clock_date hvalid, ← hnext]
    simp [utc, Wall.startOfDay, Wall.startOfHour]
  · refine .inr (.inr (.inl ⟨by simpa using hhours, ?_⟩))
    have hstart : utc.date w.startOfHour =
        t / Cron.day * Cron.day + t % Cron.day / TaskQueue.hour * TaskQueue.hour := by
      simp [utc, Wall.startOfHour, hday, hhour]
    rw [← Option.some.inj hround, hstart]
    simp only [Cron.day, TaskQueue.hour]
    omega
  · exact .inr (.inr (.inr ⟨by simpa using hminutes, (Option.some.inj hround).symm⟩))

/-- **Every round of the search goes forward**, in UTC. -/
theorem lt_of_round (hround : s.round utc t = some t') : t < t' := by
  rcases round_cases hround with ⟨-, rfl⟩ | ⟨-, rfl⟩ | ⟨-, rfl⟩ | ⟨-, rfl⟩
  · exact lt_day (Calendar.lt_next_month _)
  · exact Int.lt_ediv_add_one_mul_self t (by decide)
  · exact Int.lt_ediv_add_one_mul_self t (by decide)
  · exact lt_add_of_pos_right t (by decide)

/-- The loop of `Next`. -/
def search (s : Schedule) (limit t : ℤ) : Time :=
  if _hlt : t < limit then
    match _hround : s.round utc t with
    | some t' => search s limit t'
    | none => t
  else zeroTime
termination_by (limit - t).toNat
decreasing_by
  have := lt_of_round _hround
  omega

/-- The first minute that `Next` looks at: cron has minute granularity, so it is the next whole
one. -/
def startMinute (t : Time) : Time := t - t % Cron.minute + Cron.minute

theorem lt_startMinute (t : Time) : t < startMinute t := by
  have hlt := Int.emod_lt_of_pos t (by decide : (0 : ℤ) < Cron.minute)
  unfold startMinute
  linarith

/-- `Next`: the first time strictly after `t` at which the schedule fires, or the zero time if it
never will within the search limit. -/
def next (s : Schedule) (t : Time) : Time :=
  if 0 < s.every then t + s.every
  else s.search (startMinute t + searchLimit) (startMinute t)

theorem search_eq_zero_or_le (s : Schedule) (limit t : ℤ) :
    s.search limit t = zeroTime ∨ t ≤ s.search limit t := by
  fun_induction search s limit t with
  | case1 t h t' hround ih =>
    rcases ih with ih | ih
    · exact .inl ih
    · exact .inr ((lt_of_round hround).le.trans ih)
  | case2 t h hround => exact .inr le_rfl
  | case3 t h => exact .inl rfl

/-- **A schedule fires strictly later**, if at all. -/
theorem lt_next (hnext : s.next t ≠ zeroTime) : t < s.next t := by
  unfold next at hnext ⊢
  split_ifs at hnext ⊢ with hevery
  · exact lt_add_of_pos_right t hevery
  · rcases search_eq_zero_or_le s _ (startMinute t) with hzero | hle
    · exact absurd hzero hnext
    · exact (lt_startMinute t).trans_le hle

end Schedule

end TaskQueue.Cron
