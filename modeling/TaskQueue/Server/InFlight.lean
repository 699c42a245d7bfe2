import TaskQueue.Server.Model

/-!
# What a worker tracks

A lease is renewed only while the job is in `inFlight`, and a handler whose lease is lost is stopped
through the cancel function stored there. So from `trackJob` on until its outcome is reported, the
job of every execution should be in the map, with the cancel function of the execution that has the
job now (`Tracked`).

The map is keyed by job ID alone, and a worker may get a job again that one of its own goroutines is
still running: the lease expired while a renewal was late, the job was reaped, and this worker's
fetch loop was the one to claim it. Then two executions share one entry. The second `trackJob`
replaces the entry of the first, the first `untrackJob` deletes the entry of the second, and from
then on the second execution runs unseen by `renewLoop`.

Three steps can do harm, and exactly when they do can be said of the state they find (`Careful`):
a claim of a job that is being executed, a `trackJob` that comes after a later claim, and an
`untrackJob` while another execution of the job needs the entry. Every other step keeps the
property, so a run has it throughout **if and only if** all its steps are careful.
-/

namespace TaskQueue.Server

open Roster (IsLast)

/-- Between `trackJob` and the report. -/
def Stage.isTracked : Stage → Bool
  | .running => true
  | .returned _ => true
  | _ => false

/-- The job IDs of the executions, in the order of their claims. -/
def Worker.claimedIDs (s : Worker) : List String := s.executions.map fun e ↦ e.job.id

/-- Every job that is being executed is tracked: its ID is in `inFlight`, and `cancelJob` calls the
cancel function of the execution that has the latest claim of it. -/
def Tracked (s : Worker) : Prop :=
  ∀ e ∈ s.executions, e.stage.isTracked = true →
    e.job.id ∈ s.inFlightIDs ∧ ∃ k, IsLast s.claimedIDs e.job.id k ∧
      (s.cancelJob e.job.id).cancelCalls = k :: s.cancelCalls

/-- A step that leaves the map right. -/
def Careful (s : Worker) : Step → Prop
  | .fetch (.dequeue (.job j)) =>
    ∀ e ∈ s.executions, e.job.id = j.id → e.stage.isTracked = false
  | .job i .track => ∀ e ∈ s.executions[i]?, IsLast s.claimedIDs e.job.id i
  | .job i .untrack => ∀ e ∈ s.executions[i]?, ∀ e' ∈ s.executions,
    e'.job.id = e.job.id → e'.stage.isTracked = false
  | _ => True

instance (s : Worker) : (a : Step) → Decidable (Careful s a)
  | .cancel => .isTrue trivial
  | .fetch .leave => .isTrue trivial
  | .fetch .acquire => .isTrue trivial
  | .fetch (.dequeue (.job j)) =>
    inferInstanceAs (Decidable (∀ e ∈ s.executions, e.job.id = j.id → e.stage.isTracked = false))
  | .fetch (.dequeue .noJob) => .isTrue trivial
  | .fetch (.dequeue .failed) => .isTrue trivial
  | .fetch .launch => .isTrue trivial
  | .fetch .giveBack => .isTrue trivial
  | .fetch .check => .isTrue trivial
  | .fetch .wake => .isTrue trivial
  | .fetch .interrupt => .isTrue trivial
  | .job i .track =>
    inferInstanceAs (Decidable (∀ e ∈ s.executions[i]?, IsLast s.claimedIDs e.job.id i))
  | .job i .untrack =>
    inferInstanceAs (Decidable (∀ e ∈ s.executions[i]?, ∀ e' ∈ s.executions,
      e'.job.id = e.job.id → e'.stage.isTracked = false))
  | .job _ (.handle _) => .isTrue trivial
  | .job _ (.report _) => .isTrue trivial
  | .job _ .release => .isTrue trivial
  | .job _ .finish => .isTrue trivial
  | .drain _ => .isTrue trivial
  | .renew _ => .isTrue trivial

variable {cfg : Config} {s s' : Worker} {a : Step} {i k : ℕ} {e : Execution} {id : String}
  {h : List (Turn Worker Step)}

/-! ### The map -/

/-- The cancel function that `cancelJob` calls is the one stored. -/
theorem cancelCalls_cancelJob :
    (s.cancelJob id).cancelCalls = k :: s.cancelCalls ↔ s.inFlight.lookup id = some k := by
  unfold Worker.cancelJob
  rcases s.inFlight.lookup id with - | k'
  · simp
  · simp [Worker.cancel]

/-- The property, as a statement about lookups. -/
theorem tracked_iff : Tracked s ↔ ∀ e ∈ s.executions, e.stage.isTracked = true →
    ∃ k, s.inFlight.lookup e.job.id = some k ∧ IsLast s.claimedIDs e.job.id k := by
  refine forall₃_congr fun e he htracked ↦ ⟨?_, ?_⟩
  · rintro ⟨-, k, hlast, hcalls⟩
    exact ⟨k, cancelCalls_cancelJob.1 hcalls, hlast⟩
  · rintro ⟨k, hlook, hlast⟩
    refine ⟨?_, k, hlast, cancelCalls_cancelJob.2 hlook⟩
    exact AList.mem_keys.1 (AList.lookup_isSome.1 (Option.isSome_of_eq_some hlook))

theorem tracked_init : Tracked .init := fun _ he ↦ by cases he

/-! ### Steps -/

/-- Only a claim adds to the list of claimed IDs. -/
theorem claimedIDs_of_step (hstep : step cfg s a = some s') :
    (∃ j, a = .fetch (.dequeue (.job j)) ∧ s'.claimedIDs = s.claimedIDs ++ [j.id]) ∨
      (∀ j, a ≠ .fetch (.dequeue (.job j))) ∧ s'.claimedIDs = s.claimedIDs := by
  rcases executions_of_step hstep with ⟨j, rfl, hex⟩ | ⟨i, e, rfl, -, he, hex⟩ |
    ⟨i, b, e, st, rfl, he, -, hex⟩ | ⟨hex, hno, -⟩
  · exact .inl ⟨j, rfl, by rw [Worker.claimedIDs, hex, List.map_append]; rfl⟩
  · exact .inr ⟨by simp, by rw [Worker.claimedIDs, hex, Roster.map_replace he (by rfl)]; rfl⟩
  · exact .inr ⟨by simp, by rw [Worker.claimedIDs, hex, Roster.map_replace he (by rfl)]; rfl⟩
  · exact .inr ⟨hno, by rw [Worker.claimedIDs, hex]; rfl⟩

/-- An execution is tracked after a step if it was before it, or if the step is its `trackJob`. -/
theorem mem_of_step (hstep : step cfg s a = some s') {e' : Execution} (he' : e' ∈ s'.executions)
    (htracked : e'.stage.isTracked = true) :
    (∃ e ∈ s.executions, e.stage.isTracked = true ∧ e.job = e'.job) ∨
      ∃ i e, a = .job i .track ∧ s.executions[i]? = some e ∧ e.job = e'.job := by
  obtain ⟨i, hi⟩ := List.mem_iff_getElem?.1 he'
  rcases execution_of_step hstep i with ⟨b, e, st, rfl, he, hst, heq⟩ | ⟨-, hcases⟩
  · rw [hi] at heq
    obtain rfl := Option.some.inj heq
    obtain ⟨j, st₀⟩ := e
    rcases Stage.advance_cases hst with ⟨rfl, rfl, rfl⟩ | ⟨o, rfl, rfl, rfl⟩ |
      ⟨now, err, rfl, rfl, rfl⟩ | ⟨rfl, rfl, rfl⟩ | ⟨rfl, rfl, rfl⟩ | ⟨rfl, rfl, rfl⟩
    · exact .inr ⟨i, _, rfl, he, rfl⟩
    · exact .inl ⟨_, List.mem_of_getElem? he, rfl, rfl⟩
    all_goals cases htracked
  · rw [hi] at hcases
    rcases hcases with heq | ⟨j, -, -, heq⟩ | ⟨e, -, -, heq⟩
    · exact .inl ⟨e', List.mem_of_getElem? heq.symm, htracked, rfl⟩
    · obtain rfl := Option.some.inj heq
      cases htracked
    · obtain rfl := Option.some.inj heq
      cases htracked

/-- A claim keeps the map right if and only if the job is not being executed: the entry of one that
is belongs to an earlier claim. -/
theorem tracked_claim_iff (hs : Tracked s) {j : Job}
    (hstep : step cfg s (.fetch (.dequeue (.job j))) = some s') :
    Tracked s' ↔ ∀ e ∈ s.executions, e.job.id = j.id → e.stage.isTracked = false := by
  have hmap : s'.inFlight = s.inFlight := by
    rcases inFlight_of_step hstep with ⟨i, e, heq, -⟩ | ⟨i, e, heq, -⟩ | ⟨hmap, -⟩
    · cases heq
    · cases heq
    · exact hmap
  obtain ⟨_, ⟨⟩, hex⟩ | ⟨_, _, ⟨⟩, -⟩ | ⟨_, _, _, _, ⟨⟩, -⟩ | ⟨-, hno, -⟩ :=
    executions_of_step hstep
  swap
  · exact absurd rfl (hno j)
  have hids : s'.claimedIDs = s.claimedIDs ++ [j.id] := by
    rw [Worker.claimedIDs, hex, List.map_append]
    rfl
  rw [tracked_iff] at hs ⊢
  rw [hmap, hids, hex]
  constructor
  · intro hs' e he hid
    refine eq_false_of_ne_true fun htracked ↦ ?_
    obtain ⟨k, hlook, hlast⟩ := hs e he htracked
    obtain ⟨k', hlook', hlast'⟩ := hs' e (List.mem_append_left _ he) htracked
    rw [hlook] at hlook'
    rw [Roster.isLast_join, if_pos hid, ← Option.some.inj hlook'] at hlast'
    exact hlast.lt_length.ne hlast'
  · intro hcareful e he htracked
    rcases List.mem_append.1 he with he | he
    · obtain ⟨k, hlook, hlast⟩ := hs e he htracked
      refine ⟨k, hlook, ?_⟩
      rw [Roster.isLast_join, if_neg fun hid ↦ ?_]
      · exact hlast
      · rw [hcareful e he hid] at htracked
        cases htracked
    · rw [List.mem_singleton.1 he] at htracked
      cases htracked

/-- A `trackJob` keeps the map right if and only if no later execution has claimed the job. -/
theorem tracked_track_iff (hs : Tracked s) (hstep : step cfg s (.job i .track) = some s') :
    Tracked s' ↔ ∀ e ∈ s.executions[i]?, IsLast s.claimedIDs e.job.id i := by
  obtain ⟨e, st, s₁, he, hst, hs₁, heq⟩ := runJob_eq_some hstep
  obtain rfl := Option.some.inj hs₁
  have hrunning : { e with stage := st } ∈ s'.executions := by
    refine List.mem_of_getElem? (i := i) ?_
    rw [heq]
    exact (Roster.getElem?_replace he _ i).trans (if_pos rfl)
  have htracked : st.isTracked = true := by
    obtain ⟨-, -, rfl⟩ | ⟨_, ⟨⟩, -⟩ | ⟨_, _, ⟨⟩, -⟩ | ⟨⟨⟩, -⟩ | ⟨⟨⟩, -⟩ | ⟨⟨⟩, -⟩ :=
      Stage.advance_cases hst
    rfl
  have hids : s'.claimedIDs = s.claimedIDs :=
    (claimedIDs_of_step hstep).elim (fun ⟨_, hno, _⟩ ↦ by cases hno) And.right
  have hmap : ∀ id, s'.inFlight.lookup id =
      if id = e.job.id then some i else s.inFlight.lookup id := by
    intro id
    rw [heq]
    exact Table.lookup_insert_eq s.inFlight e.job.id id i
  simp only [he, Option.mem_some_iff, forall_eq']
  rw [tracked_iff] at hs ⊢
  rw [hids]
  constructor
  · intro hs'
    obtain ⟨k, hlook, hlast⟩ := hs' _ hrunning htracked
    rw [hmap, if_pos rfl] at hlook
    rw [Option.some.inj hlook]
    exact hlast
  · intro hlast e' he' htracked'
    rw [hmap]
    split_ifs with hid
    · exact ⟨i, rfl, hid ▸ hlast⟩
    · rcases mem_of_step hstep he' htracked' with
        ⟨e₀, he₀, htracked₀, hjob⟩ | ⟨_, e₀, ⟨⟩, he₀, hjob⟩
      · rw [← hjob]
        exact hs e₀ he₀ htracked₀
      · rw [he] at he₀
        obtain rfl := Option.some.inj he₀
        exact absurd (congrArg Job.id hjob).symm hid

/-- An `untrackJob` keeps the map right if and only if no other execution needs the entry. -/
theorem tracked_untrack_iff (hs : Tracked s) (hstep : step cfg s (.job i .untrack) = some s') :
    Tracked s' ↔ ∀ e ∈ s.executions[i]?, ∀ e' ∈ s.executions,
      e'.job.id = e.job.id → e'.stage.isTracked = false := by
  obtain ⟨e, st, s₁, he, hst, hs₁, heq⟩ := runJob_eq_some hstep
  obtain rfl := Option.some.inj hs₁
  have hreported : e.stage.isTracked = false := by
    obtain ⟨⟨⟩, -⟩ | ⟨_, ⟨⟩, -⟩ | ⟨_, _, ⟨⟩, -⟩ | ⟨-, hstage, -⟩ | ⟨⟨⟩, -⟩ | ⟨⟨⟩, -⟩ :=
      Stage.advance_cases hst
    rw [hstage]
    rfl
  have hids : s'.claimedIDs = s.claimedIDs :=
    (claimedIDs_of_step hstep).elim (fun ⟨_, hno, _⟩ ↦ by cases hno) And.right
  have hmap : ∀ id, s'.inFlight.lookup id =
      if id = e.job.id then none else s.inFlight.lookup id := by
    intro id
    rw [heq]
    exact Table.lookup_erase_eq s.inFlight e.job.id id
  -- an execution between `trackJob` and its report is another one, which the step leaves alone
  have hstay : ∀ e' ∈ s.executions, e'.stage.isTracked = true → e' ∈ s'.executions := by
    intro e' he' htracked
    obtain ⟨k, hk⟩ := List.mem_iff_getElem?.1 he'
    refine List.mem_of_getElem? (i := k) ?_
    rw [heq]
    refine (Roster.getElem?_replace he _ k).trans ?_
    rw [if_neg]
    · exact hk
    · rintro rfl
      rw [he] at hk
      rw [← Option.some.inj hk, hreported] at htracked
      cases htracked
  simp only [he, Option.mem_some_iff, forall_eq']
  rw [tracked_iff] at hs ⊢
  rw [hids]
  constructor
  · intro hs' e' he' hid
    refine eq_false_of_ne_true fun htracked ↦ ?_
    obtain ⟨k, hlook, -⟩ := hs' e' (hstay e' he' htracked) htracked
    rw [hmap, if_pos hid] at hlook
    cases hlook
  · intro hcareful e' he' htracked
    rcases mem_of_step hstep he' htracked with ⟨e₀, he₀, htracked₀, hjob⟩ | ⟨_, _, ⟨⟩, -⟩
    rw [hmap, ← hjob, if_neg]
    · exact hs e₀ he₀ htracked₀
    · intro hid
      rw [hcareful e₀ he₀ hid] at htracked₀
      cases htracked₀

/-- Every other step keeps it right. -/
theorem tracked_of_other (hs : Tracked s) (hstep : step cfg s a = some s')
    (hids : s'.claimedIDs = s.claimedIDs) (hmap : s'.inFlight = s.inFlight)
    (hno : ∀ i, a ≠ .job i .track) : Tracked s' := by
  rw [tracked_iff] at hs ⊢
  rw [hids, hmap]
  intro e' he' htracked
  rcases mem_of_step hstep he' htracked with ⟨e, he, htracked, hjob⟩ | ⟨i, e, rfl, -⟩
  · rw [← hjob]
    exact hs e he htracked
  · exact absurd rfl (hno i)

/-- **A step keeps the map right if and only if it is careful.** -/
theorem tracked_step_iff (hs : Tracked s) (hstep : step cfg s a = some s') :
    Tracked s' ↔ Careful s a := by
  rcases claimedIDs_of_step hstep with ⟨j, rfl, -⟩ | ⟨hno, hids⟩
  · exact tracked_claim_iff hs hstep
  · rcases inFlight_of_step hstep with ⟨i, e, rfl, -⟩ | ⟨i, e, rfl, -⟩ | ⟨hmap, hother⟩
    · exact tracked_track_iff hs hstep
    · exact tracked_untrack_iff hs hstep
    · refine iff_of_true (tracked_of_other hs hstep hids hmap fun i ↦ (hother i).1) ?_
      unfold Careful
      split
      · next j => exact absurd rfl (hno j)
      · next i => exact absurd rfl (hother i).1
      · next i => exact absurd rfl (hother i).2
      · trivial

/-! ### Runs -/

/-- **A running job stays tracked exactly as long as its worker is careful.** In every run of a
worker, every job is tracked from its `trackJob` to its report at all times if and only if every
step was careful: no job was claimed that an execution of this worker was between `trackJob` and
report with, no `trackJob` came after a later claim of the same job, and no `untrackJob` came while
another execution of the job was between the two. -/
theorem tracked_iff_careful (cfg : Config) (hrun : (machine cfg).Run (Possible cfg) h s) :
    (∀ t ∈ h, Tracked ((machine cfg).after t)) ↔ ∀ t ∈ h, Careful t.before t.input := by
  have hboth : ((∀ t ∈ h, Tracked ((machine cfg).after t)) ↔ ∀ t ∈ h, Careful t.before t.input) ∧
      ((∀ t ∈ h, Tracked ((machine cfg).after t)) → Tracked s) := by
    refine Machine.Run.invariant (P := fun h s ↦
      ((∀ t ∈ h, Tracked ((machine cfg).after t)) ↔ ∀ t ∈ h, Careful t.before t.input) ∧
        ((∀ t ∈ h, Tracked ((machine cfg).after t)) → Tracked s)) ?_ ?_ hrun
    · exact ⟨by simp, fun _ ↦ tracked_init⟩
    · rintro h s a - ⟨hiff, htracked⟩ hok
      refine ⟨?_, fun hall ↦ hall _ List.mem_cons_self⟩
      rw [List.forall_mem_cons, List.forall_mem_cons, ← hiff]
      refine and_congr_left fun hall ↦ ?_
      obtain ⟨s', hs'⟩ := Option.isSome_iff_exists.1 hok
      rw [show (machine cfg).after ⟨s, a⟩ = s' from congrArg (·.getD s) hs']
      exact tracked_step_iff (htracked hall) hs'
  exact hboth.1

/-- The lease of job `a` expired while its handler was running, and the worker claimed the job
again. -/
def overlapping : List Step :=
  [.fetch .acquire, .fetch (.dequeue (.job { Job.plain "q" "t" 3 with id := "a", attempt := 1 })),
    .fetch .launch, .job 0 .track, .fetch .acquire,
    .fetch (.dequeue (.job { Job.plain "q" "t" 3 with id := "a", attempt := 2 })), .fetch .launch,
    .job 1 .track, .job 0 (.handle .succeeded), .job 0 (.report 5), .job 0 .untrack]

/-- Then the first handler ends, its goroutine deletes the entry, and the second execution is
running without being tracked: the next renewal finds nothing to renew, and `cancelJob` cancels
nothing. -/
theorem running_job_untracked : ∃ cfg h s, (machine cfg).Run (Possible cfg) h s ∧
    (∃ e, s.executions[1]? = some e ∧ e.job.id = "a" ∧ e.stage = .running) ∧ s.inFlightIDs = [] ∧
    (step cfg s (.renew (.read []))).isSome ∧ (s.cancelJob "a").cancelCalls = s.cancelCalls ∧
    ¬ Tracked s := by
  have hrun : (machine ⟨"w", 2, fun _ ↦ 0⟩).Run (Possible ⟨"w", 2, fun _ ↦ 0⟩) _ _ :=
    .play overlapping .start (by decide +kernel)
  have hids : ((machine ⟨"w", 2, fun _ ↦ 0⟩).play [] (machine ⟨"w", 2, fun _ ↦ 0⟩).init
      overlapping).2.inFlightIDs = [] := by decide +kernel
  refine ⟨_, _, _, hrun, ⟨_, rfl, by decide +kernel, by decide +kernel⟩, hids, by decide +kernel,
    by decide +kernel, fun htracked ↦ ?_⟩
  obtain ⟨hmem, -⟩ := htracked _ (List.mem_of_getElem? (i := 1) rfl) (by decide +kernel)
  rw [hids] at hmem
  cases hmem

/-- The same job claimed again after its first execution was over: every step is careful. -/
def oneAfterTheOther : List Step :=
  [.fetch .acquire, .fetch (.dequeue (.job { Job.plain "q" "t" 3 with id := "a", attempt := 1 })),
    .fetch .launch, .job 0 .track, .job 0 (.handle (.failed "no" false)), .job 0 (.report 5),
    .fetch .acquire,
    .fetch (.dequeue (.job { Job.plain "q" "t" 3 with id := "a", attempt := 2 })),
    .fetch .launch, .job 0 .untrack, .job 1 .track]

theorem tracked_iff_careful_retried : ∃ cfg h s, (machine cfg).Run (Possible cfg) h s ∧
    (∀ t ∈ h, Tracked ((machine cfg).after t)) ∧ s.inFlight.lookup "a" = some 1 := by
  have hrun : (machine ⟨"w", 2, fun _ ↦ 0⟩).Run (Possible ⟨"w", 2, fun _ ↦ 0⟩) _ _ :=
    .play oneAfterTheOther .start (by decide +kernel)
  exact ⟨_, _, _, hrun, (tracked_iff_careful _ hrun).2 (by decide +kernel), by decide +kernel⟩

end TaskQueue.Server
