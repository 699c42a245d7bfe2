import Mathlib.Data.List.Forall2
import Mathlib.Tactic.Linarith
import TaskQueue.Job

/-!
# The pace of the maintenance loops

`reapLoop` and `promoteLoop` sleep for a jittered interval, make one call and start over. The time
line of such a loop is the list of its **rounds**: what `rand` drew for the sleep, how late the
timer fired and how long the call took. A round in which the timer and the call together cost at
most `slack` is followed by the next one within the interval and the slack, whatever was drawn, so
the instants at which the calls take effect are **never further apart than the interval and twice
the slack** (`exists_call_in_window`).
-/

namespace TaskQueue.Server

/-- `reapBatch` -/
def reapBatch : ℤ := 100

/-- `promoteBatch` -/
def promoteBatch : ℤ := 100

/-- What the loops do with an interval that came out as nothing. -/
def orSecond (interval : Duration) : Duration := if interval ≤ 0 then 10 ^ 9 else interval

/-- The interval of `reapLoop`. -/
def reapInterval (vt : Duration) : Duration := orSecond (vt.tdiv 2)

/-- The interval of `promoteLoop`. -/
def promoteInterval (vt : Duration) : Duration := orSecond (min (10 ^ 9) (vt.tdiv 2))

/-- The interval of `schedulerLoop`. -/
def schedulerInterval (vt : Duration) : Duration := orSecond (min (5 * 10 ^ 9) (vt.tdiv 2))

theorem orSecond_pos (interval : Duration) : 0 < orSecond interval := by
  rw [orSecond]
  split_ifs with h
  · decide
  · exact not_le.1 h

/-- `jitter`, with what `rand.Int64N` drew. -/
def jitter (d draw : Duration) : Duration := if d ≤ 1 then d else d.tdiv 2 + draw

/-- What `rand.Int64N` can draw for a jitter of `d`; it is not asked at all if `d` is too short, and
never with an argument it panics on. -/
def Draws (d draw : Duration) : Prop := 1 < d → 0 ≤ draw ∧ draw < d.tdiv 2

theorem jitter_le {d draw : Duration} (h : Draws d draw) : jitter d draw ≤ d := by
  rw [jitter]
  split_ifs with hd
  · exact le_rfl
  · obtain ⟨-, hlt⟩ := h (not_le.1 hd)
    have hhalf : d.tdiv 2 = d / 2 := Int.tdiv_eq_ediv_of_nonneg (by linarith)
    have hdouble := Int.ediv_mul_le d (show (2 : ℤ) ≠ 0 by decide)
    rw [← hhalf] at hdouble
    linarith

/-! ### Rounds -/

/-- One round of a loop: what was drawn for the sleep, how long after the sleep the call began, and
how long it took. -/
structure Round where
  draw : Duration
  late : Duration
  busy : Duration

/-- A round whose timer and call cost no more than the slack. -/
structure Round.Within (interval slack : Duration) (r : Round) : Prop where
  draws : Draws interval r.draw
  late : 0 ≤ r.late
  busy : 0 ≤ r.busy
  slack : r.late + r.busy ≤ slack

variable (interval : Duration)

/-- When the call of a round begins if the loop is at its top at `top`. -/
def Round.begins (top : Time) (r : Round) : Time := top + jitter interval r.draw + r.late

/-- When the call of a round ends. -/
def Round.ends (top : Time) (r : Round) : Time := r.begins interval top + r.busy

/-- The calls of a loop, each by its beginning and its end. -/
def calls : Time → List Round → List (Time × Time)
  | _, [] => []
  | top, r :: rs => (r.begins interval top, r.ends interval top) :: calls (r.ends interval top) rs

/-- When a loop is back at its top. -/
def finish : Time → List Round → Time
  | top, [] => top
  | top, r :: rs => finish (r.ends interval top) rs

variable {interval} {slack : Duration} {α : Type*}

/-- **The calls of a loop are never far apart.** If each call takes effect between its beginning and
its end, then one of them takes effect in every stretch of the interval and twice the slack. -/
theorem exists_call_in_window (takes : α → Time → Prop) (a : Time) (hpos : 0 < interval)
    (hslack : 0 ≤ slack) :
    ∀ {top : Time} {rs : List Round} {xs : List α}, top ≤ a + slack →
      (∀ r ∈ rs, r.Within interval slack) →
      List.Forall₂ (fun call x ↦ ∃ at_, takes x at_ ∧ call.1 ≤ at_ ∧ at_ ≤ call.2)
        (calls interval top rs) xs →
      a + (interval + 2 * slack) ≤ finish interval top rs →
      ∃ x ∈ xs, ∃ at_, takes x at_ ∧ a < at_ ∧ at_ ≤ a + (interval + 2 * slack)
  | top, [], _, htop, _, _, hlong => by
    rw [finish] at hlong
    linarith
  | top, r :: rs, xs, htop, hrs, hcalls, hlong => by
    rw [calls] at hcalls
    obtain ⟨x, xs, ⟨at_, htakes, hlow, hhigh⟩, hrest, rfl⟩ := List.forall₂_cons_left_iff.1 hcalls
    have hr := hrs r List.mem_cons_self
    have hjitter := jitter_le hr.draws
    have hcost := hr.slack
    have hlate := hr.late
    have hbusy := hr.busy
    simp only [Round.ends, Round.begins] at hlow hhigh
    by_cases hafter : a < at_
    · refine ⟨x, List.mem_cons_self, at_, htakes, hafter, ?_⟩
      linarith
    · -- the call was too early, so it is over soon after `a`
      obtain ⟨y, hy, hfound⟩ := exists_call_in_window takes a hpos hslack
        (show r.ends interval top ≤ a + slack by rw [Round.ends, Round.begins]; linarith)
        (fun r' hr' ↦ hrs r' (List.mem_cons_of_mem r hr')) hrest hlong
      exact ⟨y, List.mem_cons_of_mem x hy, hfound⟩

end TaskQueue.Server
