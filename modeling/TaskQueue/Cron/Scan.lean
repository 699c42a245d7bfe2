import Mathlib.Algebra.Ring.Divisibility.Basic
import TaskQueue.Cron.Schedule

/-!
# The search of Next, minute by minute

What a schedule means is plain: it fires in the minutes whose fields it allows (`Fires`). `Next`
does not look at every minute; where the month, the day or the hour does not match it jumps to the
next one. No minute is lost by that (`not_fires_of_round`): from one instant to the next month, day
or hour the clock keeps showing the field that did not match. So the search is a minute-by-minute
**scan** of its window (`next_eq_scan`), in UTC.
-/

namespace TaskQueue.Cron

open Location Calendar

/-- A bit of a mask; there are none beyond 63. -/
theorem bitSet_eq (mask : BitVec 64) (v : ℕ) : bitSet mask v = mask.getLsbD v := by
  unfold bitSet
  split_ifs with hv
  · rw [BitVec.getLsbD_of_ge _ _ (by omega)]
  · rw [← BitVec.twoPow_eq, BitVec.and_twoPow]
    rcases hbit : mask.getLsbD v with - | -
    · rfl
    · have hne : BitVec.twoPow 64 v ≠ 0#64 := by
        intro hzero
        have hself := congrArg (fun x ↦ BitVec.getLsbD x v) hzero
        simp [BitVec.getLsbD_twoPow] at hself
        omega
      simpa using hne

namespace Schedule

variable {s : Schedule} {t t' m limit : ℤ}

/-- The day rule: a starred field leaves the day to the other one, and two restricted fields are
alternatives. -/
def DayRule (s : Schedule) (w : Wall) : Prop :=
  if s.domStar = true ∧ s.dowStar = true then True
  else if s.domStar = true then s.dow.getLsbD w.weekday.toNat = true
  else if s.dowStar = true then s.dom.getLsbD w.day.toNat = true
  else s.dom.getLsbD w.day.toNat = true ∨ s.dow.getLsbD w.weekday.toNat = true

instance (s : Schedule) (w : Wall) : Decidable (s.DayRule w) := by
  unfold DayRule
  infer_instance

/-- The schedule fires in the minute that begins at `m`. -/
structure Fires (s : Schedule) (m : Time) : Prop where
  month : s.month.getLsbD (utc.clock m).month.toNat = true
  day : s.DayRule (utc.clock m)
  hour : s.hour.getLsbD (utc.clock m).hour.toNat = true
  minute : s.minute.getLsbD (utc.clock m).minute.toNat = true

theorem dayMatches_iff (w : Wall) : s.dayMatches w = true ↔ s.DayRule w := by
  unfold dayMatches DayRule
  simp only [bitSet_eq]
  rcases s.domStar with - | - <;> rcases s.dowStar with - | - <;> simp

theorem round_eq_none_iff : s.round utc t = none ↔ s.Fires t := by
  unfold round
  dsimp only
  simp only [bitSet_eq]
  constructor
  · intro hround
    split_ifs at hround with hmonth hday hhour hminute
    exact ⟨by simpa using hmonth, (dayMatches_iff _).1 (by simpa using hday), by simpa using hhour,
      by simpa using hminute⟩
  · intro hfires
    simp [hfires.month, (dayMatches_iff _).2 hfires.day, hfires.hour, hfires.minute]

/-! ### No minute is skipped -/

/-- The clock shows one date all day. -/
theorem clock_of_same_day (hday : m / Cron.day = t / Cron.day) :
    (utc.clock m).year = (utc.clock t).year ∧ (utc.clock m).month = (utc.clock t).month ∧
      (utc.clock m).day = (utc.clock t).day := by
  simp only [utc, hday, and_self]

theorem dayRule_of_same_day (hday : m / Cron.day = t / Cron.day) :
    s.DayRule (utc.clock m) ↔ s.DayRule (utc.clock t) := by
  obtain ⟨hyear, hmonth, hdom⟩ := clock_of_same_day hday
  simp only [DayRule, Wall.weekday, hyear, hmonth, hdom]

/-- The instants from one on until a jump is over lie in the same stretch. -/
theorem ediv_eq_of_lt {k : ℤ} (hk : 0 < k) (hle : t ≤ m) (hlt : m < (t / k + 1) * k) :
    m / k = t / k := by
  refine le_antisymm ?_ (Int.ediv_le_ediv hk hle)
  exact Int.lt_add_one_iff.1 (Int.ediv_lt_of_lt_mul hk hlt)

/-- **A jump passes over no minute in which the schedule fires.** -/
theorem not_fires_of_round (hround : s.round utc t = some t') (ht : Cron.minute ∣ t)
    (hm : Cron.minute ∣ m) (hle : t ≤ m) (hlt : m < t') : ¬ s.Fires m := by
  intro hfires
  rcases round_cases hround with ⟨hbit, rfl⟩ | ⟨hbit, rfl⟩ | ⟨hbit, rfl⟩ | ⟨hbit, rfl⟩
  · -- the month that did not match lasts until the jump is over
    have hday : m / Cron.day + unixDay <
        dayNumber (utc.clock t).year ((utc.clock t).month + 1) 1 := by
      have := Int.ediv_lt_of_lt_mul (by decide : 0 < Cron.day) hlt
      omega
    have hsame := same_month (add_le_add_left (Int.ediv_le_ediv (by decide) hle) unixDay) hday
    have hmonth := hfires.month
    rw [show (utc.clock m).month = (utc.clock t).month from hsame.2, ← bitSet_eq, hbit] at hmonth
    cases hmonth
  · have hday := (dayRule_of_same_day (ediv_eq_of_lt (by decide) hle hlt)).1 hfires.day
    rw [← dayMatches_iff, hbit] at hday
    cases hday
  · have hstretch : m / TaskQueue.hour = t / TaskQueue.hour := ediv_eq_of_lt (by decide) hle hlt
    have hsame : (utc.clock m).hour = (utc.clock t).hour := by
      show m % Cron.day / TaskQueue.hour = t % Cron.day / TaskQueue.hour
      simp only [Cron.day, TaskQueue.hour] at hstretch ⊢
      omega
    have hhour := hfires.hour
    rw [hsame, ← bitSet_eq, hbit] at hhour
    cases hhour
  · have hself : m = t := by
      obtain ⟨a, rfl⟩ := ht
      obtain ⟨b, rfl⟩ := hm
      simp only [Cron.minute] at hle hlt ⊢
      omega
    have hminute := hfires.minute
    rw [hself, ← bitSet_eq, hbit] at hminute
    cases hminute

/-- The search goes from whole minutes to whole minutes. -/
theorem minute_dvd_of_round (hround : s.round utc t = some t') (ht : Cron.minute ∣ t) :
    Cron.minute ∣ t' := by
  have hday : Cron.minute ∣ Cron.day := by decide
  have hhour : Cron.minute ∣ TaskQueue.hour := by decide
  rcases round_cases hround with ⟨-, rfl⟩ | ⟨-, rfl⟩ | ⟨-, rfl⟩ | ⟨-, rfl⟩
  · exact hday.mul_left _
  · exact hday.mul_left _
  · exact hhour.mul_left _
  · exact ht.add dvd_rfl

/-! ### The scan -/

/-- The whole minutes of a window in which the schedule fires. -/
def firing (s : Schedule) (start limit : Time) : Set Time :=
  {m | Cron.minute ∣ m ∧ start ≤ m ∧ m < limit ∧ s.Fires m}

/-- A jump leaves the minutes that are still to come. -/
theorem firing_of_round (hround : s.round utc t = some t') (ht : Cron.minute ∣ t) :
    s.firing t limit = s.firing t' limit := by
  ext m
  refine and_congr_right fun hm ↦ ?_
  constructor
  · rintro ⟨hle, hlt, hfires⟩
    refine ⟨not_lt.1 fun hlt' ↦ ?_, hlt, hfires⟩
    exact not_fires_of_round hround ht hm hle hlt' hfires
  · rintro ⟨hle, hlt, hfires⟩
    exact ⟨(lt_of_round hround).le.trans hle, hlt, hfires⟩

/-- **The search finds the first firing minute of its window**, or gives up if there is none. -/
theorem search_eq_scan (s : Schedule) (limit t : ℤ) (ht : Cron.minute ∣ t) :
    IsLeast (s.firing t limit) (s.search limit t) ∨
      s.firing t limit = ∅ ∧ s.search limit t = zeroTime := by
  fun_induction search s limit t with
  | case1 t hlt t' hround ih =>
    rw [firing_of_round hround ht]
    exact ih (minute_dvd_of_round hround ht)
  | case2 t hlt hround =>
    exact .inl ⟨⟨ht, le_rfl, hlt, round_eq_none_iff.1 hround⟩, fun m hm ↦ hm.2.1⟩
  | case3 t hlt =>
    refine .inr ⟨Set.eq_empty_of_forall_notMem fun m hm ↦ hlt ?_, rfl⟩
    exact hm.2.1.trans_lt hm.2.2.1

theorem minute_dvd_startMinute (t : Time) : Cron.minute ∣ startMinute t :=
  (Int.dvd_self_sub_emod).add dvd_rfl

theorem next_eq_search (hevery : ¬ 0 < s.every) (t : Time) :
    s.next t = s.search (startMinute t + searchLimit) (startMinute t) := by
  rw [next, if_neg hevery]

/-- **When `Next` gives up.** -/
theorem next_ne_zero_iff (hevery : ¬ 0 < s.every) (ht : zeroTime ≤ t) :
    s.next t ≠ zeroTime ↔ (s.firing (startMinute t) (startMinute t + searchLimit)).Nonempty := by
  rw [next_eq_search hevery]
  rcases search_eq_scan s (startMinute t + searchLimit) _ (minute_dvd_startMinute t) with
    hleast | ⟨hempty, hzero⟩
  · refine iff_of_true (fun hzero ↦ ?_) hleast.nonempty
    exact absurd (hzero ▸ hleast.1.2.1) (ht.trans_lt (lt_startMinute t)).not_ge
  · exact iff_of_false (not_not_intro hzero) (Set.not_nonempty_iff_eq_empty.2 hempty)

/-- **`Next` is a minute-by-minute scan**, for every schedule that is not an `@every` and every
instant from year 1 on. -/
theorem next_eq_scan (s : Schedule) (hevery : ¬ 0 < s.every) (ht : zeroTime ≤ t) :
    (s.next t = zeroTime ↔ s.firing (startMinute t) (startMinute t + searchLimit) = ∅) ∧
    ((s.firing (startMinute t) (startMinute t + searchLimit)).Nonempty →
      IsLeast (s.firing (startMinute t) (startMinute t + searchLimit)) (s.next t)) := by
  rw [next_eq_search hevery]
  rcases search_eq_scan s (startMinute t + searchLimit) _ (minute_dvd_startMinute t) with
    hleast | ⟨hempty, hzero⟩
  · refine ⟨iff_of_false (fun hzero ↦ ?_) hleast.nonempty.ne_empty, fun _ ↦ hleast⟩
    exact absurd (hzero ▸ hleast.1.2.1) (ht.trans_lt (lt_startMinute t)).not_ge
  · exact ⟨iff_of_true hzero hempty, fun hne ↦ absurd hempty hne.ne_empty⟩

/-- "0 0 29 2 *" -/
def leapDay : Schedule where
  minute := 0x1
  hour := 0x1
  dom := 0x20000000
  month := 0x4
  dow := 0x7F
  domStar := false
  dowStar := true
  every := 0

/-- Asked at the beginning of 1970, the schedule of the leap days finds the first of them, and that
is not later than 29 February 1972. -/
theorem next_eq_scan_leapDay :
    IsLeast (leapDay.firing (startMinute 0) (startMinute 0 + searchLimit)) (leapDay.next 0) ∧
      leapDay.next 0 ≤ 68169600 * second := by
  have hmem : 68169600 * second ∈ leapDay.firing (startMinute 0) (startMinute 0 + searchLimit) :=
    ⟨by decide, by decide, by decide, by decide, by decide, by decide, by decide⟩
  have hleast := (next_eq_scan leapDay (by decide) (by decide : zeroTime ≤ 0)).2 ⟨_, hmem⟩
  exact ⟨hleast, hleast.2 hmem⟩

end Schedule

end TaskQueue.Cron
