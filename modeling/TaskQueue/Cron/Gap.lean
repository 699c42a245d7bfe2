import TaskQueue.Cron.Parse
import TaskQueue.Cron.Scan

/-!
# How far apart the minutes of a schedule are

`Next` gives up after 1825 days. A schedule that came from five fields fires **every year**
(`EveryYear`), or only on **leap days** (`LeapOnly`), or never (`everyYear_or_leapOnly`): a day of
the month that some month of every year has comes every year, and so does a day of the week in a
month, and the one date that some years have and others have not is 29 February.

A schedule that fires every year fires within the window of the search. Leap days are eight years
apart around a century that is no leap year, and then the search can give up on a schedule that
fires: `next_gives_up_iff` says exactly when.
-/

namespace TaskQueue.Cron

open Location Calendar

namespace Schedule

variable {s : Schedule} {t m : ℤ}

/-! ### Minutes of a date -/

/-- The first instant of a minute of a date. -/
def minuteOf (w : Date) (h mi : ℤ) : ℤ := utc.date ⟨w.year, w.month, w.day, h, mi, 0, 0⟩

theorem minuteOf_eq (w : Date) (h mi : ℤ) : minuteOf w h mi =
    (dayNumber w.year w.month w.day - unixDay) * Cron.day + h * TaskQueue.hour +
      mi * Cron.minute := by
  simp [minuteOf, utc]

theorem minute_dvd_minuteOf (w : Date) (h mi : ℤ) : Cron.minute ∣ minuteOf w h mi := by
  have hday : Cron.minute ∣ Cron.day := by decide
  have hhour : Cron.minute ∣ TaskQueue.hour := by decide
  rw [minuteOf_eq]
  exact ((hday.mul_left _).add (hhour.mul_left _)).add (dvd_mul_left _ _)

/-- The day of a minute, and what is left of it. -/
theorem minuteOf_ediv (w : Date) {h mi : ℤ} (hh : 0 ≤ h ∧ h < 24) (hmi : 0 ≤ mi ∧ mi < 60) :
    minuteOf w h mi / Cron.day + unixDay = dayNumber w.year w.month w.day ∧
      minuteOf w h mi % Cron.day = h * TaskQueue.hour + mi * Cron.minute := by
  rw [minuteOf_eq]
  generalize dayNumber w.year w.month w.day = n
  simp only [Cron.day, TaskQueue.hour, Cron.minute, unixDay]
  constructor <;> omega

/-- A minute of a date shows that date. -/
theorem clock_minuteOf {w : Date} (hw : w.Valid) {h mi : ℤ} (hh : 0 ≤ h ∧ h < 24)
    (hmi : 0 ≤ mi ∧ mi < 60) :
    utc.clock (minuteOf w h mi) = ⟨w.year, w.month, w.day, h, mi, 0, 0⟩ := by
  obtain ⟨hday, hrest⟩ := minuteOf_ediv w hh hmi
  show Wall.mk _ _ _ _ _ _ _ = _
  rw [hday, hrest, date_dayNumber hw]
  simp only [Wall.mk.injEq, true_and, TaskQueue.hour, Cron.minute, Cron.second]
  omega

/-- A whole minute is the minute of its date that the clock shows. -/
theorem minuteOf_clock (hm : Cron.minute ∣ m) :
    minuteOf ⟨(utc.clock m).year, (utc.clock m).month, (utc.clock m).day⟩ (utc.clock m).hour
      (utc.clock m).minute = m := by
  have hday : dayNumber (utc.clock m).year (utc.clock m).month (utc.clock m).day =
      m / Cron.day + unixDay := dayNumber_date _
  have hhour : (utc.clock m).hour = m % Cron.day / TaskQueue.hour := rfl
  have hminute : (utc.clock m).minute = m % Cron.day % TaskQueue.hour / Cron.minute := rfl
  obtain ⟨k, rfl⟩ := hm
  rw [minuteOf_eq, hday, hhour, hminute]
  simp only [Cron.day, TaskQueue.hour, Cron.minute]
  omega

/-- The schedule allows the date. -/
def Allows (s : Schedule) (w : Date) : Prop :=
  w.Valid ∧ s.month.getLsbD w.month.toNat = true ∧ s.DayRule ⟨w.year, w.month, w.day, 0, 0, 0, 0⟩

/-- **A schedule fires in the allowed minutes of the allowed dates.** -/
theorem fires_minuteOf (hs : s.Parsed) {w : Date} (hw : s.Allows w) {h mi : ℕ}
    (hh : s.hour.getLsbD h = true) (hmi : s.minute.getLsbD mi = true) :
    s.Fires (minuteOf w h mi) := by
  have hh24 : h ≤ 23 := (hs.hour.bounds h hh).2
  have hmi60 : mi ≤ 59 := (hs.minute.bounds mi hmi).2
  have hclock : utc.clock (minuteOf w h mi) = _ :=
    clock_minuteOf hw.1 (by omega) (by omega)
  refine ⟨?_, ?_, ?_, ?_⟩ <;> rw [hclock]
  · exact hw.2.1
  · exact hw.2.2
  · exact hh
  · exact hmi

theorem allows_of_fires (hm : s.Fires m) :
    s.Allows ⟨(utc.clock m).year, (utc.clock m).month, (utc.clock m).day⟩ :=
  ⟨valid_date _, hm.month, hm.day⟩

/-! ### Every year, or on leap days -/

/-- Every year has a date that the schedule allows. -/
def EveryYear (s : Schedule) : Prop := ∀ y, ∃ w, s.Allows w ∧ w.year = y

/-- The schedule allows 29 February, and no date of a common year. -/
def LeapOnly (s : Schedule) : Prop :=
  s.domStar = false ∧ s.dowStar = true ∧ s.month.getLsbD 2 = true ∧ s.dom.getLsbD 29 = true ∧
    ∀ mo d : ℕ, s.month.getLsbD mo = true → s.dom.getLsbD d = true → monthLength 0 (mo - 1) < d

/-- The index of a month that the mask has. -/
theorem Parsed.month_index (hs : s.Parsed) {mo : ℕ} (hmo : s.month.getLsbD mo = true) :
    ∃ k : ℕ, k < 12 ∧ mo = k + 1 := by
  have hmin : 1 ≤ mo := (hs.month.bounds mo hmo).1
  have hmax : mo ≤ 12 := (hs.month.bounds mo hmo).2
  exact ⟨mo - 1, by omega, by omega⟩

/-- A date that every year has. -/
theorem everyYear_of_date (hs : s.Parsed) {mo d : ℕ} (hmo : s.month.getLsbD mo = true)
    (hd : 1 ≤ d) (hle : d ≤ monthLength 0 (mo - 1))
    (hday : ∀ y, s.DayRule ⟨y, mo, d, 0, 0, 0, 0⟩) : s.EveryYear := by
  intro y
  obtain ⟨k, hk, rfl⟩ := hs.month_index hmo
  rw [Nat.add_sub_cancel] at hle
  have hlength := (monthLength_le (leapDays_eq y) hk).2
  have hvalid : Date.Valid ⟨y, (k + 1 : ℕ), d⟩ := by
    push_cast
    exact (valid_iff hk).2 ⟨by omega, by omega⟩
  exact ⟨_, ⟨hvalid, hmo, hday y⟩, rfl⟩

/-- A day of the week in a month comes every year, in the first seven days of the month. -/
theorem everyYear_of_weekday (hs : s.Parsed)
    (hday : ∀ w : Wall, s.dow.getLsbD w.weekday.toNat = true → s.DayRule w) : s.EveryYear := by
  intro y
  obtain ⟨mo, hmo⟩ := hs.month.nonempty
  obtain ⟨k, hk, rfl⟩ := hs.month_index hmo
  obtain ⟨v, hv⟩ := hs.dow.nonempty
  have hv6 : v ≤ 6 := (hs.dow.bounds v hv).2
  obtain ⟨j, hj, hj7, hweekday⟩ :=
    exists_weekday_eq (dayNumber y (k + 1 : ℕ) 1) (Int.natCast_nonneg v) (by omega)
  rw [← dayNumber_add] at hweekday
  have hlength := monthLength_le (leapDays_eq y) hk
  have hvalid : Date.Valid ⟨y, (k + 1 : ℕ), 1 + j⟩ := by
    push_cast
    exact (valid_iff hk).2 ⟨by omega, by omega⟩
  refine ⟨_, ⟨hvalid, hmo, hday _ ?_⟩, rfl⟩
  rw [Wall.weekday, hweekday, Int.toNat_natCast]
  exact hv

/-- The only date that is too late in its month for a common year. -/
theorem leap_of_uncommon {w : Date} (hvalid : w.Valid)
    (hlt : monthLength 0 (w.month.toNat - 1) < w.day.toNat) :
    isLeap w.year = true ∧ w.month = 2 ∧ w.day = 29 := by
  obtain ⟨year, month, day⟩ := w
  have hmin := hvalid.month_pos
  have hmax := hvalid.month_le
  have hpos := hvalid.day_pos
  dsimp only at hlt hmin hmax hpos ⊢
  obtain ⟨k, rfl⟩ : ∃ k : ℕ, month = k + 1 := ⟨(month - 1).toNat, by omega⟩
  have hindex : ((k : ℤ) + 1).toNat - 1 = k := by omega
  rw [hindex, Int.toNat_of_nonneg (by omega)] at hlt
  obtain ⟨hleap, rfl, rfl⟩ := leap_day (by omega) hvalid hlt
  exact ⟨hleap, rfl, rfl⟩

/-- **A schedule of fields fires every year, or only on leap days, or never.** -/
theorem everyYear_or_leapOnly (hs : s.Parsed) (hm : s.Fires m) : s.EveryYear ∨ s.LeapOnly := by
  rcases hdom : s.domStar with - | -
  · rcases hdow : s.dowStar with - | -
    · refine .inl (everyYear_of_weekday hs fun w hw ↦ ?_)
      simp [DayRule, hdom, hdow, hw]
    · have hrule : ∀ w, s.DayRule w ↔ s.dom.getLsbD w.day.toNat = true := by
        intro w
        simp [DayRule, hdom, hdow]
      by_cases hcommon : ∃ mo d : ℕ, s.month.getLsbD mo = true ∧ s.dom.getLsbD d = true ∧
          d ≤ monthLength 0 (mo - 1)
      · obtain ⟨mo, d, hmo, hd, hle⟩ := hcommon
        exact .inl (everyYear_of_date hs hmo (hs.dom.bounds d hd).1 hle fun y ↦ (hrule _).2 hd)
      · push Not at hcommon
        -- The date on which it fires is one that a common year does not have.
        obtain ⟨hvalid, hmo, hday⟩ := allows_of_fires hm
        rw [hrule] at hday
        obtain ⟨-, hmonth, h29⟩ := leap_of_uncommon hvalid (hcommon _ _ hmo hday)
        rw [hmonth] at hmo
        rw [h29] at hday
        exact .inr ⟨hdom, hdow, hmo, hday, hcommon⟩
  · rcases hdow : s.dowStar with - | -
    · refine .inl (everyYear_of_weekday hs fun w hw ↦ ?_)
      simp [DayRule, hdom, hdow, hw]
    · refine .inl (everyYear_of_weekday hs fun w _ ↦ ?_)
      simp [DayRule, hdom, hdow]

/-! ### The window of the search -/

/-- A schedule that fires every year fires in the window: in the year after the one the search
begins in. -/
theorem firing_of_everyYear (hs : s.Parsed) (h : s.EveryYear) (start : ℤ) :
    (s.firing start (start + searchLimit)).Nonempty := by
  obtain ⟨hour, hhour⟩ := hs.hour.nonempty
  obtain ⟨mi, hmi⟩ := hs.minute.nonempty
  have hhour23 : hour ≤ 23 := (hs.hour.bounds hour hhour).2
  have hmi59 : mi ≤ 59 := (hs.minute.bounds mi hmi).2
  obtain ⟨w, hw, hyear⟩ := h (yearOf (start / Cron.day + unixDay) + 1)
  obtain ⟨hbegun, hover⟩ := yearStart_yearOf (start / Cron.day + unixDay)
  have hleap := leapDays_eq (yearOf (start / Cron.day + unixDay))
  have hleap' := leapDays_eq (yearOf (start / Cron.day + unixDay) + 1)
  have hlater : start / Cron.day + unixDay < dayNumber w.year w.month w.day :=
    hover.trans_le ((congrArg yearStart hyear).symm.trans_le hw.1.dayNumber_mem.1)
  have hsoon : dayNumber w.year w.month w.day < start / Cron.day + unixDay + 732 := by
    have hlast := hw.1.dayNumber_mem.2.trans_eq (congrArg (fun y ↦ yearStart (y + 1)) hyear)
    rw [yearStart_succ (_ + 1), yearStart_succ] at hlast
    omega
  have heq := minuteOf_eq w hour mi
  simp only [Cron.day, TaskQueue.hour, Cron.minute, unixDay] at hlater hsoon heq
  have hge : start ≤ minuteOf w hour mi := by omega
  have hlt : minuteOf w hour mi < start + searchLimit := by
    simp only [searchLimit, TaskQueue.hour]
    omega
  exact ⟨_, minute_dvd_minuteOf w hour mi, hge, hlt, fires_minuteOf hs hw hhour hmi⟩

/-- 29 February of a year. -/
def leapDate (y : ℤ) : Date := ⟨y, 2, 29⟩

theorem valid_leapDate {y : ℤ} (hy : isLeap y = true) : (leapDate y).Valid := by
  refine (valid_iff (m := 1) (by decide)).2 ⟨by decide, ?_⟩
  rw [leapDays, if_pos hy]
  decide

theorem LeapOnly.allows (h : s.LeapOnly) {y : ℤ} (hy : isLeap y = true) :
    s.Allows (leapDate y) := by
  obtain ⟨hdom, hdow, hmonth, hday, -⟩ := h
  refine ⟨valid_leapDate hy, hmonth, ?_⟩
  simp only [DayRule, hdom, hdow]
  exact hday

/-- **Where a schedule of the leap days fires.** -/
theorem LeapOnly.fires (h : s.LeapOnly) (hdvd : Cron.minute ∣ m) (hm : s.Fires m) :
    ∃ (y : ℤ) (hour mi : ℕ), isLeap y = true ∧ s.hour.getLsbD hour = true ∧
      s.minute.getLsbD mi = true ∧ m = minuteOf (leapDate y) hour mi := by
  obtain ⟨hdom, hdow, -, -, hcommon⟩ := h
  obtain ⟨hvalid, hmo, hday⟩ := allows_of_fires hm
  have hdayBit : s.dom.getLsbD (utc.clock m).day.toNat = true := by
    simpa [DayRule, hdom, hdow] using hday
  obtain ⟨hleap, hmonth, h29⟩ := leap_of_uncommon hvalid (hcommon _ _ hmo hdayBit)
  have hhour : 0 ≤ (utc.clock m).hour := by
    show 0 ≤ m % Cron.day / TaskQueue.hour
    simp only [Cron.day, TaskQueue.hour]
    omega
  have hminute : 0 ≤ (utc.clock m).minute := by
    show 0 ≤ m % Cron.day % TaskQueue.hour / Cron.minute
    simp only [Cron.day, TaskQueue.hour, Cron.minute]
    omega
  refine ⟨(utc.clock m).year, (utc.clock m).hour.toNat, (utc.clock m).minute.toNat, hleap, hm.hour,
    hm.minute, ?_⟩
  rw [Int.toNat_of_nonneg hhour, Int.toNat_of_nonneg hminute, leapDate, ← hmonth, ← h29]
  exact (minuteOf_clock hdvd).symm

theorem dayNumber_leapDate (y : ℤ) : dayNumber (leapDate y).year (leapDate y).month
    (leapDate y).day = yearStart y + 59 := by
  have h := @dayNumber_eq y 29 1 (by decide)
  simp only [monthStart] at h
  exact h.trans (by simp; omega)

/-- There is no last leap day. -/
theorem exists_leapDate_after (t : ℤ) {h mi : ℕ} (hh : h ≤ 23) (hmi : mi ≤ 59) :
    ∃ y, isLeap y = true ∧ t < minuteOf (leapDate y) h mi := by
  refine ⟨400 * (max t 0 + 2000), ?_, ?_⟩
  · simp only [isLeap, decide_eq_true_eq]
    omega
  · rw [minuteOf_eq, dayNumber_leapDate, yearStart]
    simp only [Cron.day, TaskQueue.hour, Cron.minute, unixDay]
    omega

/-- **When `Next` gives up on a schedule that fires**: only if all its dates are leap days, and none
of its minutes on a leap day is in the window. -/
theorem next_gives_up_iff {parseDuration : List Char → Except String Duration} {spec : List Char}
    (hspec : parse parseDuration spec = .ok s) (hfields : ¬ 0 < s.every) (ht : zeroTime ≤ t) :
    ((∃ m, Cron.minute ∣ m ∧ t < m ∧ s.Fires m) → s.next t ≠ zeroTime) ↔
      (s.LeapOnly → ∃ (y : ℤ) (hour mi : ℕ), isLeap y = true ∧ s.hour.getLsbD hour = true ∧
        s.minute.getLsbD mi = true ∧ startMinute t ≤ minuteOf (leapDate y) hour mi ∧
        minuteOf (leapDate y) hour mi < startMinute t + searchLimit) := by
  have hs : s.Parsed := (parse_ok hspec).resolve_left hfields
  have hnext : s.next t ≠ zeroTime ↔
      (s.firing (startMinute t) (startMinute t + searchLimit)).Nonempty :=
    next_ne_zero_iff hfields ht
  rw [hnext]
  constructor
  · intro hfires honly
    obtain ⟨hour, hhour⟩ := hs.hour.nonempty
    obtain ⟨mi, hmi⟩ := hs.minute.nonempty
    obtain ⟨y, hy, hlt⟩ :=
      exists_leapDate_after t (hs.hour.bounds hour hhour).2 (hs.minute.bounds mi hmi).2
    obtain ⟨m, hdvd, hge, hlimit, hm⟩ := hfires ⟨_, minute_dvd_minuteOf _ _ _, hlt,
      fires_minuteOf hs (honly.allows hy) hhour hmi⟩
    obtain ⟨y, hour, mi, hy, hhour, hmi, rfl⟩ := honly.fires hdvd hm
    exact ⟨y, hour, mi, hy, hhour, hmi, hge, hlimit⟩
  · rintro hwindow ⟨m, -, -, hm⟩
    rcases everyYear_or_leapOnly hs hm with hyear | honly
    · exact firing_of_everyYear hs hyear _
    · obtain ⟨y, hour, mi, hy, hhour, hmi, hge, hlt⟩ := hwindow honly
      exact ⟨_, minute_dvd_minuteOf _ _ _, hge, hlt,
        fires_minuteOf hs (honly.allows hy) hhour hmi⟩

/-- Asked at the beginning of 1970, "0 0 29 2 *" does not give up: 1972 is a leap year. -/
theorem next_gives_up_iff_1972 : leapDay.next 0 ≠ zeroTime := by
  have hspec : parse (fun _ ↦ .error "") ['0', ' ', '0', ' ', '2', '9', ' ', '2', ' ', '*'] =
      .ok leapDay := rfl
  have hfires : leapDay.Fires (68169600 * second) := ⟨by decide, by decide, by decide, by decide⟩
  exact (next_gives_up_iff (t := 0) hspec (by decide) (by decide)).2
    (fun _ ↦ ⟨1972, 0, 0, by decide, by decide, by decide, by decide, by decide⟩)
    ⟨_, by decide, by decide, hfires⟩

theorem leapOnly_leapDay : leapDay.LeapOnly := by
  refine ⟨rfl, rfl, by decide, by decide, fun mo d hmo hd ↦ ?_⟩
  have hbits : ∀ k < 64, (leapDay.month.getLsbD k = true → k = 2) ∧
      (leapDay.dom.getLsbD k = true → k = 29) := by decide
  obtain rfl := (hbits mo (BitVec.lt_of_getLsbD hmo)).1 hmo
  obtain rfl := (hbits d (BitVec.lt_of_getLsbD hd)).2 hd
  decide

/-- **A schedule that fires is given up.** 2100 is no leap year: asked after the leap day of 2096,
"0 0 29 2 *" gives up, although it fires on 29 February 2104. -/
theorem leap_day_given_up :
    parse (fun _ ↦ .error "") ['0', ' ', '0', ' ', '2', '9', ' ', '2', ' ', '*'] = .ok leapDay ∧
    leapDay.next (3981398400 * second) = zeroTime ∧
    Cron.minute ∣ 4233686400 * second ∧ 3981398400 * second < 4233686400 * second ∧
    leapDay.Fires (4233686400 * second) := by
  refine ⟨rfl, ?_, by decide, by decide, by decide, by decide, by decide, by decide⟩
  refine not_not.1 fun hnext ↦ ?_
  obtain ⟨m, hm⟩ := (next_ne_zero_iff (by decide) (by decide)).1 hnext
  obtain ⟨hdvd, hge, hlt, hfires⟩ := hm
  obtain ⟨y, hour, mi, hy, hhour, hmi, rfl⟩ := leapOnly_leapDay.fires hdvd hfires
  have hbits : ∀ k < 64, (leapDay.hour.getLsbD k = true → k = 0) ∧
      (leapDay.minute.getLsbD k = true → k = 0) := by decide
  obtain rfl := (hbits hour (BitVec.lt_of_getLsbD hhour)).1 hhour
  obtain rfl := (hbits mi (BitVec.lt_of_getLsbD hmi)).2 hmi
  have heq := minuteOf_eq (leapDate y) 0 0
  rw [dayNumber_leapDate] at heq
  simp only [Cron.day, unixDay, zero_mul, add_zero] at heq
  have hge' : 3981398460 * 10 ^ 9 ≤ minuteOf (leapDate y) 0 0 := hge
  have hlt' : minuteOf (leapDate y) 0 0 < (3981398460 + 157680000) * 10 ^ 9 := hlt
  have h2096 : yearStart 2096 = 765183 := by decide
  have h2102 : yearStart 2102 = 767374 := by decide
  have hafter : 2096 < y := yearStart_strictMono.lt_iff_lt.1 (by omega)
  have hbefore : y < 2102 := yearStart_strictMono.lt_iff_lt.1 (by omega)
  interval_cases y <;> cases hy

end Schedule

end TaskQueue.Cron
