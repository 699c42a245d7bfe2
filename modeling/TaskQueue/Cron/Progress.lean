import Mathlib.Tactic.LinearCombination
import TaskQueue.Cron.Zone

/-!
# Where a search makes progress

A round of `Next` rebuilds a time from what the wall clock shows, and so it need not go forward when
clocks are changed. Here is when it does, for an instant with at most one change of the offset
nearby (`lt_round_iff`). Offsets west of UTC are negative, those east of it positive, and the change
is from one to another on the same side. What the schedule asks for decides on the jump:

* to the next **minute**: always;
* to the next **hour**: not if clocks were set back, `time.Date` takes the start of the hour for one
  before the change, and by the old offset the hour is over. West of UTC that is so for an hour that
  begins before clocks are set back and is shown again; east of UTC only if clocks are set back to
  something else than a full hour;
* to the next **day** or **month**: not if clocks were set back over the coming midnight; nor if
  they will be set forward over it and it is reached by the new offset; nor if they were set forward
  over the midnight that the day or month began with, which is then taken for a time of the day
  before, and the wall clock shows as much as is counted from there. All this is west of UTC.

`progress_iff` adds that the loop ends if no round of it is one of these. In particular it always
ends **east of UTC**, if clocks are not changed often and are set back to full hours. West of UTC
there are loops that never end: `search_stuck` has one for an hour that is repeated, and one for a
midnight that is skipped.
-/

namespace TaskQueue.Cron

open Calendar (dayNumber)

/-! ### Hours, days and months in UTC -/

namespace Location

variable (v : ℤ)

/-- Counting on by months and days leaves the time of day. -/
theorem utc_addDate (months days : ℤ) : utc.addDate v 0 months days =
    (dayNumber (utc.clock v).year ((utc.clock v).month + months) ((utc.clock v).day + days) -
      unixDay) * Cron.day + v % Cron.day := by
  have htime : v % Cron.day / TaskQueue.hour * TaskQueue.hour +
      v % Cron.day % TaskQueue.hour / Cron.minute * Cron.minute +
      v % Cron.day % Cron.minute / Cron.second * Cron.second + v % Cron.day % Cron.second =
        v % Cron.day := by
    simp only [Cron.day, TaskQueue.hour, Cron.minute, Cron.second]
    omega
  rw [← htime]
  simp only [addDate, utc, add_zero]
  ring

theorem dayNumber_clock :
    dayNumber (utc.clock v).year (utc.clock v).month (utc.clock v).day =
      v / Cron.day + unixDay := Calendar.dayNumber_date _

/-- Days are counted from the first of the month. -/
theorem dayNumber_first_add :
    dayNumber (utc.clock v).year (utc.clock v).month 1 + ((utc.clock v).day - 1) =
      v / Cron.day + unixDay := by
  rw [← Calendar.dayNumber_add, add_sub_cancel, dayNumber_clock]

theorem utc_addDate_day : utc.addDate v 0 0 1 = v + Cron.day := by
  have hsplit := Int.mul_ediv_add_emod v Cron.day
  rw [utc_addDate, add_zero, Calendar.dayNumber_add, dayNumber_clock]
  linarith

theorem utc_startOfHour :
    utc.date (utc.clock v).startOfHour = v / TaskQueue.hour * TaskQueue.hour := by
  have hday := dayNumber_clock v
  have hstart : utc.date (utc.clock v).startOfHour =
      v / Cron.day * Cron.day + v % Cron.day / TaskQueue.hour * TaskQueue.hour := by
    simp only [utc, Wall.startOfHour] at hday ⊢
    rw [hday]
    ring
  have htime : v / Cron.day * Cron.day + v % Cron.day / TaskQueue.hour * TaskQueue.hour =
      v / TaskQueue.hour * TaskQueue.hour := by
    simp only [Cron.day, TaskQueue.hour]
    omega
  exact hstart.trans htime

/-- The hour that is shown at `v`, from its first instant on. -/
theorem hour_mem : TaskQueue.hour ∣ utc.date (utc.clock v).startOfHour ∧
    utc.date (utc.clock v).startOfHour ≤ v ∧
    v < utc.date (utc.clock v).startOfHour + TaskQueue.hour := by
  have hpos : 0 < TaskQueue.hour := by decide
  have hlt : v < (v / TaskQueue.hour + 1) * TaskQueue.hour := Int.lt_ediv_add_one_mul_self v hpos
  rw [add_mul, one_mul] at hlt
  rw [utc_startOfHour]
  exact ⟨dvd_mul_left _ _, Int.ediv_mul_le v hpos.ne', hlt⟩

theorem utc_startOfDay : utc.date (utc.clock v).startOfDay = v / Cron.day * Cron.day := by
  have hday := dayNumber_clock v
  simp only [utc, Wall.startOfDay, Wall.startOfHour] at hday ⊢
  rw [hday]
  ring

/-- The day that is shown at `v`, from its first instant on. -/
theorem day_mem : utc.date (utc.clock v).startOfDay ≤ v ∧
    v < utc.addDate (utc.date (utc.clock v).startOfDay) 0 0 1 := by
  have hpos : 0 < Cron.day := by decide
  have hlt : v < (v / Cron.day + 1) * Cron.day := Int.lt_ediv_add_one_mul_self v hpos
  rw [add_mul, one_mul] at hlt
  rw [utc_addDate_day, utc_startOfDay]
  exact ⟨Int.ediv_mul_le v hpos.ne', hlt⟩

/-- The number of days of the month that is shown at `v`. -/
def monthDays : ℤ :=
  dayNumber (utc.clock v).year ((utc.clock v).month + 1) 1 -
    dayNumber (utc.clock v).year (utc.clock v).month 1

theorem monthDays_mem : 28 ≤ monthDays v ∧ monthDays v ≤ 31 := by
  have hmem := Calendar.next_month_mem (v / Cron.day + unixDay)
  simp only [monthDays, utc]
  omega

/-- Counting on a month is counting on the days of this one. -/
theorem utc_addDate_month : utc.addDate v 0 1 0 = v + monthDays v * Cron.day := by
  have hfirst := dayNumber_first_add v
  have hsplit := Int.mul_ediv_add_emod v Cron.day
  have hnext : (utc.clock v).day + 0 = 1 + ((utc.clock v).day - 1) := by ring
  rw [utc_addDate, hnext, Calendar.dayNumber_add, monthDays]
  linear_combination (hfirst * Cron.day) + hsplit

theorem utc_startOfMonth : utc.date (utc.clock v).startOfMonth =
    (dayNumber (utc.clock v).year (utc.clock v).month 1 - unixDay) * Cron.day := by
  simp only [utc, Wall.startOfMonth, Wall.startOfDay, Wall.startOfHour]
  ring

theorem month_bounds : utc.date (utc.clock v).startOfMonth ≤ v ∧
    v < utc.date (utc.clock v).startOfMonth + monthDays v * Cron.day := by
  have hfirst := dayNumber_first_add v
  have hpos : 1 ≤ (utc.clock v).day := (Calendar.valid_date _).day_pos
  have hlt : v / Cron.day + unixDay <
      dayNumber (utc.clock v).year ((utc.clock v).month + 1) 1 := Calendar.lt_next_month _
  have hle : dayNumber (utc.clock v).year (utc.clock v).month 1 - unixDay ≤ v / Cron.day := by
    linarith
  constructor
  · calc utc.date (utc.clock v).startOfMonth
      _ = (dayNumber (utc.clock v).year (utc.clock v).month 1 - unixDay) * Cron.day :=
        utc_startOfMonth v
      _ ≤ v / Cron.day * Cron.day := mul_le_mul_of_nonneg_right hle (by decide)
      _ ≤ v := Int.ediv_mul_le v (by decide)
  · have hend : utc.date (utc.clock v).startOfMonth + monthDays v * Cron.day =
        (dayNumber (utc.clock v).year ((utc.clock v).month + 1) 1 - unixDay) * Cron.day := by
      rw [utc_startOfMonth, monthDays]
      ring
    exact (Schedule.lt_day hlt).trans_eq hend.symm

variable {v} in
/-- It is the same month up to its end. -/
theorem monthDays_eq {u : ℤ} (hle : utc.date (utc.clock v).startOfMonth ≤ u)
    (hlt : u < utc.date (utc.clock v).startOfMonth + monthDays v * Cron.day) :
    monthDays u = monthDays v := by
  have hpos : 0 < Cron.day := by decide
  have hvalid : Calendar.Date.Valid ⟨(utc.clock v).year, (utc.clock v).month, 1⟩ :=
    (Calendar.valid_date _).first
  have hfirst := Calendar.date_dayNumber hvalid
  rw [utc_startOfMonth] at hle hlt
  have hle' : dayNumber (utc.clock v).year (utc.clock v).month 1 ≤ u / Cron.day + unixDay := by
    have := (Int.le_ediv_iff_mul_le hpos).2 hle
    omega
  have hlt' : u / Cron.day + unixDay <
      dayNumber (utc.clock v).year ((utc.clock v).month + 1) 1 := by
    rw [← add_mul] at hlt
    have := (Int.ediv_lt_iff_lt_mul hpos).2 hlt
    rw [monthDays] at this
    omega
  obtain ⟨hyear, hmonth⟩ := Calendar.same_month hle' (by rw [hfirst]; exact hlt')
  rw [hfirst] at hyear hmonth
  have hyear' : (utc.clock u).year = (utc.clock v).year := hyear
  have hmonth' : (utc.clock u).month = (utc.clock v).month := hmonth
  rw [monthDays, monthDays, hyear', hmonth']

/-- The month that is shown at `v`, from its first instant on. -/
theorem month_mem : utc.date (utc.clock v).startOfMonth ≤ v ∧
    v < utc.addDate (utc.date (utc.clock v).startOfMonth) 0 1 0 := by
  obtain ⟨hle, hlt⟩ := month_bounds v
  have hstart := monthDays_eq (v := v) le_rfl (hle.trans_lt hlt)
  rw [utc_addDate_month, hstart]
  exact ⟨hle, hlt⟩

/-- Days as a jump of the clock. -/
theorem advances_day (start : ℤ) : ClockChange.Advances Cron.day start (utc.addDate · 0 0 1) where
  of_lt v hle _ := by
    rw [utc_addDate_day]
    exact sub_le_iff_le_add.1 hle
  of_gt v hlt _ := by
    rw [utc_addDate_day, utc_addDate_day]
    exact add_le_add_left hlt.le _

/-- Months as a jump of the clock. -/
theorem advances_month : ClockChange.Advances Cron.day (utc.date (utc.clock v).startOfMonth)
    (utc.addDate · 0 1 0) where
  of_lt u hle _ := by
    have hdays := (monthDays_mem u).1
    rw [utc_addDate_month]
    simp only [Cron.day] at *
    omega
  of_gt u hlt hle := by
    have hdays := (monthDays_mem v).1
    have hstart : monthDays (utc.date (utc.clock v).startOfMonth) = monthDays v :=
      monthDays_eq le_rfl (by simp only [Cron.day]; omega)
    have hu : monthDays u = monthDays v := by
      refine monthDays_eq hlt.le ?_
      simp only [Cron.day] at *
      omega
    rw [utc_addDate_month, utc_addDate_month, hstart, hu]
    exact add_le_add_left hlt.le _

end Location

/-! ### Jumps near a change -/

namespace Zone

open Location

variable {z : Zone} {c : ClockChange} {lo hi n : ℤ}

/-- The way back from a wall clock. -/
theorem ChangesOnce.resolved_eq (honce : z.ChangesOnce c lo hi) (hone : c.OneSided Cron.day)
    (hlo : lo + Cron.day ≤ n) (hhi : n + Cron.day < hi) : z.resolved n = c.resolve n := by
  have hday : 0 < Cron.day := by decide
  have habs := abs_le.1 (hone.abs_offset_le n)
  rw [Zone.resolved_eq, honce n (by omega) (by omega), honce _ (by omega) (by omega),
    ClockChange.resolve]

/-- **`AddDate` after `time.Date`** is a jump of the clock. -/
theorem ChangesOnce.addDate_eq (honce : z.ChangesOnce c lo hi) (hone : c.OneSided Cron.day)
    {w : Wall} {months days : ℤ} (hlo : lo + Cron.day ≤ utc.date w)
    (hhi : utc.date w + Cron.day < hi)
    (hnext : ∀ v : ℤ, |v - utc.date w| ≤ Cron.day → lo + Cron.day ≤ utc.addDate v 0 months days ∧
      utc.addDate v 0 months days + Cron.day < hi) :
    z.location.addDate (z.location.date w) 0 months days =
      c.land (utc.date w) (utc.addDate · 0 months days) := by
  have hdate : z.location.date w = utc.date w - c.resolve (utc.date w) :=
    congrArg (utc.date w - ·) (honce.resolved_eq hone hlo hhi)
  have hwall : z.wall (utc.date w - c.resolve (utc.date w)) = c.shown (utc.date w) := by
    have habs := abs_le.1 (hone.abs_offset_le (utc.date w - c.offset (utc.date w)))
    rw [wall, honce, ClockChange.shown, ClockChange.reading]
    · rw [ClockChange.resolve]
      linarith
    · rw [ClockChange.resolve]
      linarith
  obtain ⟨hlo', hhi'⟩ := hnext _ (hone.abs_shown_sub_le (utc.date w))
  have hland := honce.resolved_eq hone hlo' hhi'
  show utc.addDate (z.wall (z.location.date w)) 0 months days -
    z.resolved (utc.addDate (z.wall (z.location.date w)) 0 months days) = _
  rw [hdate, hwall, hland, ClockChange.land]

end Zone

namespace Schedule

open Location

variable (s : Schedule)

/-- How far from an instant a round looks: to the other end of a month, or to the next day. -/
def span (w : Wall) : Duration := if !bitSet s.month w.month.toNat then 40 * day else 5 * day

/-- There is one change near `t`, if any: its offsets are both west or both east of UTC, and not
more than a day. -/
structure Near (z : Zone) (c : ClockChange) (t : Time) : Prop where
  oneSided : c.OneSided day
  once : z.ChangesOnce c (t - s.span (z.location.clock t)) (t + s.span (z.location.clock t))

/-- **The rounds that do not go forward.** -/
def Stalls (c : ClockChange) (t : Time) : Prop :=
  let w := utc.clock (c.reading t)
  if !bitSet s.month w.month.toNat then
    c.Missed (utc.date w.startOfMonth) (utc.addDate · 0 1 0) t
  else if !s.dayMatches w then c.Missed (utc.date w.startOfDay) (utc.addDate · 0 0 1) t
  else if !bitSet s.hour w.hour.toNat then
    c.Overtaken (utc.date w.startOfHour) TaskQueue.hour t
  else False

instance (c : ClockChange) (t : Time) : Decidable (s.Stalls c t) := by
  unfold Stalls
  infer_instance

variable {s} {z : Zone} {c : ClockChange} {t t' : ℤ}

theorem span_pos (w : Wall) : 0 < s.span w := by
  unfold span
  split_ifs <;> decide

theorem Near.wall_eq (hnear : s.Near z c t) : z.wall t = c.reading t := by
  have hpos := span_pos (s := s) (z.location.clock t)
  rw [Zone.wall, hnear.once t (sub_le_self t hpos.le) (lt_add_of_pos_right t hpos),
    ClockChange.reading]

theorem Near.clock_eq (hnear : s.Near z c t) :
    z.location.clock t = utc.clock (c.reading t) :=
  congrArg utc.clock hnear.wall_eq

/-- The next month is ahead. -/
theorem lt_month_iff (hone : c.OneSided day) (honce : z.ChangesOnce c (t - 40 * day) (t + 40 * day))
    {w : Wall} (hw : w = utc.clock (c.reading t)) :
    t < z.location.addDate (z.location.date w.startOfMonth) 0 1 0 ↔
      ¬ c.Missed (utc.date w.startOfMonth) (utc.addDate · 0 1 0) t := by
  subst hw
  have hday : 0 < day := by decide
  have habs := abs_le.1 (hone.abs_offset_le t)
  have hreading : c.reading t = t + c.offset t := rfl
  have hdays (v : ℤ) : 28 * day ≤ monthDays v * day ∧ monthDays v * day ≤ 31 * day :=
    ⟨mul_le_mul_of_nonneg_right (monthDays_mem v).1 hday.le,
      mul_le_mul_of_nonneg_right (monthDays_mem v).2 hday.le⟩
  have hlong := (hdays (c.reading t)).2
  obtain ⟨hle, hlt⟩ := month_bounds (c.reading t)
  rw [honce.addDate_eq hone (by linarith) (by linarith) fun v hv ↦ ?_,
    hone.lt_land_iff (advances_month _) hle (month_mem _).2]
  have hv := abs_le.1 hv
  have hnext := hdays v
  rw [utc_addDate_month]
  constructor <;> linarith

/-- The next day is ahead. -/
theorem lt_day_iff (hone : c.OneSided day) (honce : z.ChangesOnce c (t - 5 * day) (t + 5 * day))
    {w : Wall} (hw : w = utc.clock (c.reading t)) :
    t < z.location.addDate (z.location.date w.startOfDay) 0 0 1 ↔
      ¬ c.Missed (utc.date w.startOfDay) (utc.addDate · 0 0 1) t := by
  subst hw
  have hday : 0 < day := by decide
  have habs := abs_le.1 (hone.abs_offset_le t)
  have hreading : c.reading t = t + c.offset t := rfl
  obtain ⟨hle, hlt⟩ := day_mem (c.reading t)
  have hshort := hlt
  rw [utc_addDate_day] at hshort
  rw [honce.addDate_eq hone (by linarith) (by linarith) fun v hv ↦ ?_,
    hone.lt_land_iff (advances_day _) hle hlt]
  have hv := abs_le.1 hv
  rw [utc_addDate_day]
  constructor <;> linarith

/-- The next hour is ahead. -/
theorem lt_hour_iff (hone : c.OneSided day) (honce : z.ChangesOnce c (t - 5 * day) (t + 5 * day))
    {w : Wall} (hw : w = utc.clock (c.reading t)) :
    t < z.location.date w.startOfHour + TaskQueue.hour ↔
      ¬ c.Overtaken (utc.date w.startOfHour) TaskQueue.hour t := by
  subst hw
  have hday : TaskQueue.hour < day := by decide
  have hhour : 0 < TaskQueue.hour := by decide
  have habs := abs_le.1 (hone.abs_offset_le t)
  have hreading : c.reading t = t + c.offset t := rfl
  obtain ⟨-, hle, hlt⟩ := hour_mem (c.reading t)
  rw [← hone.lt_resolve_add_iff hle hlt, ← honce.resolved_eq hone (by linarith) (by linarith)]
  exact Iff.rfl

/-- **When a round goes forward.** -/
theorem lt_round_iff (hround : s.round z.location t = some t') (hnear : s.Near z c t) :
    t < t' ↔ ¬ s.Stalls c t := by
  have hw := hnear.clock_eq
  have honce := hnear.once
  unfold round at hround
  unfold Stalls
  unfold span at honce
  rw [← hw]
  generalize z.location.clock t = w at hround honce hw ⊢
  dsimp only at hround ⊢
  split_ifs at hround honce ⊢
  · rw [← Option.some.inj hround]
    exact lt_month_iff hnear.oneSided honce hw
  · rw [← Option.some.inj hround]
    exact lt_day_iff hnear.oneSided honce hw
  · rw [← Option.some.inj hround]
    exact lt_hour_iff hnear.oneSided honce hw
  · rw [← Option.some.inj hround]
    exact iff_of_true (lt_add_of_pos_right t (by decide)) not_false

end Schedule

/-! ### East of UTC -/

namespace Zone

/-- Clocks are set back to full hours only. -/
def SetBackToHours : ℤ → List (ℤ × ℤ) → Prop
  | _, [] => True
  | before, (when_, after) :: rest =>
    (after < before → 3600 ∣ when_ + after) ∧ SetBackToHours after rest

/-- A zone at or east of UTC whose offset changes at most every 80 days, and whose clocks are set
back to full hours. -/
structure Eastern (z : Zone) : Prop where
  offsets : ∀ offset ∈ z.first :: z.transitions.map Prod.snd, 0 ≤ offset ∧ offset ≤ 86400
  spaced : (z.transitions.map Prod.fst).Pairwise fun when_ when' ↦ when_ + 80 * 86400 ≤ when'
  hours : SetBackToHours z.first z.transitions

/-- A change from one offset at or east of UTC to another. -/
structure EasternChange (c : ClockChange) : Prop where
  before_mem : 0 ≤ c.before ∧ c.before ≤ day
  after_mem : 0 ≤ c.after ∧ c.after ≤ day
  hours : c.after < c.before → TaskQueue.hour ∣ c.instant + c.after

theorem EasternChange.oneSided {c : ClockChange} (hc : EasternChange c) : c.OneSided day where
  side := .inr ⟨hc.before_mem.1, hc.after_mem.1⟩
  before_le := (abs_of_nonneg hc.before_mem.1).trans_le hc.before_mem.2
  after_le := (abs_of_nonneg hc.after_mem.1).trans_le hc.after_mem.2

/-- A change of the table, in nanoseconds. -/
theorem easternChange_mk (when_ : ℤ) {before after : ℤ} (hbefore : 0 ≤ before ∧ before ≤ 86400)
    (hafter : 0 ≤ after ∧ after ≤ 86400) (hhours : after < before → 3600 ∣ when_ + after) :
    EasternChange ⟨when_ * second, before * second, after * second⟩ where
  before_mem := by
    simp only [second, day]
    omega
  after_mem := by
    simp only [second, day]
    omega
  hours hlt := by
    have hlt : after < before := lt_of_mul_lt_mul_right hlt (by decide)
    rw [← add_mul]
    exact mul_dvd_mul_right (hhours hlt) second

/-- In 80 days there is at most one change. -/
theorem exists_change {lo hi : ℤ} (hspan : hi ≤ lo + 80 * day) :
    ∀ {transitions : List (ℤ × ℤ)} (start : Option ℤ) (first : ℤ),
    (∀ offset ∈ first :: transitions.map Prod.snd, 0 ≤ offset ∧ offset ≤ 86400) →
    (transitions.map Prod.fst).Pairwise (fun when_ when' ↦ when_ + 80 * 86400 ≤ when') →
    SetBackToHours first transitions →
    ∃ c, EasternChange c ∧ ∀ t : ℤ, lo ≤ t → t < hi →
      (lookupFrom start first transitions (t / second)).offset * second = c.offset t
  | [], start, first, hoffsets, _, _ => by
    have hfirst := hoffsets first List.mem_cons_self
    refine ⟨_, easternChange_mk 0 hfirst hfirst fun hlt ↦ absurd hlt (lt_irrefl _), ?_⟩
    intro t _ _
    exact (ite_self (c := t < _) _).symm
  | (when_, after) :: rest, start, first, hoffsets, hspaced, hhours => by
    have hfirst := hoffsets first List.mem_cons_self
    have hafter := hoffsets after (by simp)
    rw [List.map_cons, List.pairwise_cons] at hspaced
    by_cases hlo : when_ * second ≤ lo
    · -- the change is over
      obtain ⟨c, hc, honce⟩ := exists_change hspan (some when_) after
        (fun offset ho ↦ hoffsets offset (List.mem_cons_of_mem _ ho)) hspaced.2 hhours.2
      refine ⟨c, hc, fun t ht ht' ↦ ?_⟩
      rw [lookupFrom, if_neg (lt_second_mul_iff.not.1 (not_lt.2 (hlo.trans ht)))]
      exact honce t ht ht'
    by_cases hhi : hi ≤ when_ * second
    · -- the change is still to come
      refine ⟨_, easternChange_mk 0 hfirst hfirst fun hlt ↦ absurd hlt (lt_irrefl _),
        fun t ht ht' ↦ ?_⟩
      rw [lookupFrom, if_pos (lt_second_mul_iff.1 (ht'.trans_le hhi))]
      exact (ite_self (c := t < _) _).symm
    · refine ⟨_, easternChange_mk when_ hfirst hafter hhours.1, fun t ht ht' ↦ ?_⟩
      rw [lookupFrom, ClockChange.offset]
      simp only [lt_second_mul_iff]
      split_ifs
      · rfl
      · -- the next one is 80 days later
        have hlater : ∀ p ∈ rest, t < p.1 * second := fun p hp ↦ by
          have hle := hspaced.1 p.1 (List.mem_map_of_mem hp)
          simp only [second, day] at *
          omega
        rw [offset_lookupFrom_of_lt fun p hp ↦ lt_second_mul_iff.1 (hlater p hp)]

end Zone

namespace Schedule

open Location

variable {s : Schedule} {z : Zone} {t : ℤ} {loc : Location}

/-- **East of UTC every round goes forward.** -/
theorem exists_near (hz : z.Eastern) (s : Schedule) (t : ℤ) :
    ∃ c, s.Near z c t ∧ ¬ s.Stalls c t := by
  have hspan : s.span (z.location.clock t) ≤ 40 * day := by
    unfold span
    split_ifs <;> decide
  have hwindow : t + s.span (z.location.clock t) ≤ t - s.span (z.location.clock t) + 80 * day := by
    linarith
  obtain ⟨c, hc, honce⟩ := Zone.exists_change hwindow none z.first hz.offsets hz.spaced hz.hours
  refine ⟨c, ⟨hc.oneSided, honce⟩, ?_⟩
  unfold Stalls
  dsimp only
  split_ifs
  · exact ClockChange.not_missed hc.before_mem.1 hc.after_mem.1 (month_mem _).2
  · exact ClockChange.not_missed hc.before_mem.1 hc.after_mem.1 (day_mem _).2
  · obtain ⟨hdvd, -, hlt⟩ := hour_mem (c.reading t)
    exact ClockChange.not_overtaken hc.before_mem.1 hc.after_mem.1 hc.hours hdvd hlt
  · exact not_false

/-! ### Results -/

/-- **Where `Next` makes progress.** With at most one change of the offset nearby, a round goes
forward exactly if it does not stall at the change; the loop ends if no round of it does; and it
always ends in a location without transitions, and in one at or east of UTC that changes its offset
at most every 80 days and sets clocks back to full hours. -/
theorem progress_iff (z : Zone) (s : Schedule) :
    (∀ t t' c, s.round z.location t = some t' → s.Near z c t → (t < t' ↔ ¬ s.Stalls c t)) ∧
    (∀ t, (∀ u, s.Reaches z.location (startMinute t + searchLimit) (startMinute t) u →
      u < startMinute t + searchLimit → ∃ c, s.Near z c u ∧ ¬ s.Stalls c u) →
        ∃ n r, s.nextIn z.location n t = some r) ∧
    (z.transitions = [] ∨ z.Eastern → ∀ t, ∃ n r, s.nextIn z.location n t = some r) := by
  have hends : ∀ t, (∀ u, s.Reaches z.location (startMinute t + searchLimit) (startMinute t) u →
      u < startMinute t + searchLimit → ∃ c, s.Near z c u ∧ ¬ s.Stalls c u) →
      ∃ n r, s.nextIn z.location n t = some r := by
    refine fun t hnear ↦ nextIn_ends fun u u' hu hlt hround ↦ ?_
    obtain ⟨c, hc, hgo⟩ := hnear u hu hlt
    exact (lt_round_iff hround hc).2 hgo
  refine ⟨fun t t' c ↦ lt_round_iff, hends, ?_⟩
  rintro (hnone | hz) t
  · have hz : z = .fixed z.first := by
      obtain ⟨first, transitions, hsorted⟩ := z
      subst hnone
      rfl
    rw [hz]
    exact nextIn_ends fun u u' _ _ hround ↦ lt_of_round_fixed hround
  · exact hends t fun u _ _ ↦ exists_near hz s u

/-- A schedule of full hours and days of the week. -/
def hourly (hour dow : BitVec 64) (dowStar : Bool) : Schedule where
  minute := 1
  hour := hour
  dom := 0xFFFFFFFE
  month := 0x1FFE
  dow := dow
  domStar := true
  dowStar := dowStar
  every := 0

theorem berlin_sorted :
    ([(1711846800, 7200), (1729990800, 3600)].map (Prod.fst : ℤ × ℤ → ℤ)).Pairwise (· < ·) := by
  simp

/-- Berlin in 2024. -/
def berlin : Zone := ⟨3600, [(1711846800, 7200), (1729990800, 3600)], berlin_sorted⟩

theorem eastern_berlin : berlin.Eastern where
  offsets := by simp [berlin]
  spaced := by simp [berlin]
  hours := by simp [berlin, Zone.SetBackToHours]

/-- At 02:00 on the day that clocks go back from 03:00 to 02:00, "0 5 * * *" jumps to 03:00; and
every search ends. -/
theorem progress_iff_berlin : ∃ t t' : Time,
    (hourly 0x20 0x7F true).round berlin.location t = some t' ∧ t < t' ∧
    ∀ u, ∃ n r, (hourly 0x20 0x7F true).nextIn berlin.location n u = some r := by
  obtain ⟨hiff, -, hends⟩ := progress_iff berlin (hourly 0x20 0x7F true)
  have hround : (hourly 0x20 0x7F true).round berlin.location (1729990800 * second) =
      some (1729994400 * second) := by decide
  have hnear : (hourly 0x20 0x7F true).Near berlin
      ⟨1729990800 * second, 7200 * second, 3600 * second⟩ (1729990800 * second) := by
    have htable : berlin.transitions = [(1711846800, 7200)] ++ (1729990800, 3600) :: [] := rfl
    refine ⟨⟨.inr (by decide), by decide, by decide⟩, ?_⟩
    exact Zone.changesOnce_of_transitions htable (by decide) (by decide)
  exact ⟨_, _, hround, (hiff _ _ _ hround hnear).2 (by decide), hends (.inr eastern_berlin)⟩

/-- A round that leads to where it began is repeated for ever. -/
theorem nextIn_stuck (hevery : s.every = 0)
    (hround : s.round loc (startMinute t) = some (startMinute t)) (n : ℕ) :
    s.nextIn loc n t = none := by
  rw [nextIn, if_neg (by rw [hevery]; decide)]
  have hlt : startMinute t < startMinute t + searchLimit := lt_add_of_pos_right _ (by decide)
  induction n with
  | zero => rfl
  | succ n ih =>
    rw [searchIn, if_pos hlt, hround]
    exact ih

/-- **Two loops that never end.** New York repeats the hour from 01:00 on 3 November 2024, and
"0 3 * * *" jumps from its second pass to where it is. São Paulo skips the hour from 00:00 on 4
November 2018, and "0 0 * * 1" at 23:00 of that day takes its midnight for 23:00 of the day before,
and adds a day. -/
theorem search_stuck : ∃ newYork saoPaulo : Zone, ∃ t u : Time,
    (∀ n, (hourly 0x8 0x7F true).nextIn newYork.location n t = none) ∧
    ∀ n, (hourly 0x1 0x2 false).nextIn saoPaulo.location n u = none := by
  let newYork : Zone := ⟨-14400, [(1730613600, -18000)], by simp⟩
  let saoPaulo : Zone := ⟨-10800, [(1541300400, -7200)], by simp⟩
  refine ⟨newYork, saoPaulo, 1730613599 * second, 1541379599 * second, ?_, ?_⟩
  · exact nextIn_stuck rfl (by decide)
  · exact nextIn_stuck rfl (by decide)

example : (hourly 0x8 0x7F true).Stalls ⟨1730613600 * second, -14400 * second, -18000 * second⟩
    (1730613600 * second) := by decide

end Schedule

end TaskQueue.Cron
