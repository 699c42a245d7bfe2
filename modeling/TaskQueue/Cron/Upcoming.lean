import Mathlib.Data.Int.Interval
import TaskQueue.Cron.Gap
import TaskQueue.Data.Successors

/-!
# The fire times of a schedule, one after the other

`Next` looks for one fire time. A scheduler uses it over and over, from the tick that fired to the
next one, and it is that chain which should be the list of all fire times. It is: a search that does
not give up finds the **least whole minute after `t`** in which the schedule fires
(`next_isLeast`), wherever its window ends, so the chain passes over no fire time and invents none.

A schedule of fields that fires at all fires every year, and then no search gives up; the exception
are the schedules of leap days, whose minutes can be further apart than the window.
-/

namespace TaskQueue.Cron.Schedule

open Location Calendar

variable {s : Schedule} {t m : ℤ}

/-- The whole minutes after `t` in which the schedule fires. -/
def upcoming (s : Schedule) (t : Time) : Set Time := {m | Cron.minute ∣ m ∧ t < m ∧ s.Fires m}

theorem upcoming_eq (s : Schedule) (t : Time) :
    s.upcoming t = {m | m ∈ {m | Cron.minute ∣ m ∧ s.Fires m} ∧ t < m} := by
  ext m
  exact ⟨fun hm ↦ ⟨⟨hm.1, hm.2.2⟩, hm.2.1⟩, fun hm ↦ ⟨hm.1.1, hm.2, hm.1.2⟩⟩

/-- The first minute that `Next` looks at is the first whole minute after `t`. -/
theorem startMinute_le_iff (hm : Cron.minute ∣ m) : startMinute t ≤ m ↔ t < m := by
  obtain ⟨k, rfl⟩ := hm
  change t - t % 60000000000 + 60000000000 ≤ 60000000000 * k ↔ t < 60000000000 * k
  omega

/-- **What `Next` finds** is the least fire time after `t`. -/
theorem next_isLeast (hevery : ¬ 0 < s.every) (hnext : s.next t ≠ zeroTime) :
    IsLeast (s.upcoming t) (s.next t) := by
  rw [next_eq_search hevery] at hnext ⊢
  rcases search_eq_scan s (startMinute t + searchLimit) _ (minute_dvd_startMinute t) with
    ⟨hmem, hleast⟩ | ⟨-, hzero⟩
  · refine ⟨⟨hmem.1, (startMinute_le_iff hmem.1).1 hmem.2.1, hmem.2.2.2⟩, fun m hm ↦ ?_⟩
    -- a fire time behind the window is later than one in it
    rcases lt_or_ge m (startMinute t + searchLimit) with hin | hout
    · exact hleast ⟨hm.1, (startMinute_le_iff hm.1).2 hm.2.1, hin, hm.2.2⟩
    · exact hmem.2.2.1.le.trans hout
  · exact absurd hzero hnext

/-- If the schedule fires in the first whole minute after `t`, that is its next fire time. -/
theorem next_eq_startMinute (hevery : ¬ 0 < s.every) (hfires : s.Fires (startMinute t)) :
    s.next t = startMinute t := by
  have hlt : startMinute t < startMinute t + searchLimit := lt_add_of_pos_right _ (by decide)
  rw [next_eq_search hevery, search, dif_pos hlt]
  split
  · next t' hround =>
    rw [round_eq_none_iff.2 hfires] at hround
    cases hround
  · rfl

/-- **The chain of `Next` is the list of fire times.** For a schedule of fields that fires at some
time, and not only on leap days, the times one gets by asking again from the last answer are the
whole minutes after `t` in which the schedule fires: all of them, nothing else, and in order. -/
theorem next_enumerates {parseDuration : List Char → Except String Duration} {spec : List Char}
    (hspec : parse parseDuration spec = .ok s) (hfields : ¬ 0 < s.every) (hfires : s.Fires m)
    (hleap : ¬ s.LeapOnly) (ht : zeroTime ≤ t) :
    StrictMono (fun n ↦ s.next^[n + 1] t) ∧
      Set.range (fun n ↦ s.next^[n + 1] t) = s.upcoming t := by
  have hs : s.Parsed := (parse_ok hspec).resolve_left hfields
  have hyear : s.EveryYear := (everyYear_or_leapOnly hs hfires).resolve_right hleap
  have hleads : Successors.Leads {m | Cron.minute ∣ m ∧ s.Fires m} s.next t := by
    intro u hu
    have hnext : s.next u ≠ zeroTime :=
      (next_ne_zero_iff hfields (ht.trans hu)).2 (firing_of_everyYear hs hyear _)
    rw [← upcoming_eq]
    exact next_isLeast hfields hnext
  refine ⟨hleads.strictMono.comp (strictMono_id.add_const 1), ?_⟩
  rw [hleads.range_iterate_eq, upcoming_eq]

/-- "0 0 * * *" -/
def midnight : Schedule where
  minute := 0x1
  hour := 0x1
  dom := 0xFFFFFFFE
  month := 0x1FFE
  dow := 0x7F
  domStar := true
  dowStar := true
  every := 0

/-- The midnights after the first one of 1970. -/
theorem next_enumerates_midnight :
    StrictMono (fun n ↦ midnight.next^[n + 1] 0) ∧
      86400 * second ∈ Set.range fun n ↦ midnight.next^[n + 1] 0 := by
  have hspec : parse (fun _ ↦ .error "") ['0', ' ', '0', ' ', '*', ' ', '*', ' ', '*'] =
      .ok midnight := rfl
  have hfires : midnight.Fires 0 := ⟨by decide, by decide, by decide, by decide⟩
  obtain ⟨hmono, hrange⟩ := next_enumerates (t := 0) hspec (by decide) hfires
    (fun hleap ↦ Bool.noConfusion hleap.1) (by decide)
  refine ⟨hmono, ?_⟩
  rw [hrange]
  exact ⟨by decide, by decide, by decide, by decide, by decide, by decide⟩

end TaskQueue.Cron.Schedule
