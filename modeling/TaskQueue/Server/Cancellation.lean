import TaskQueue.Server.InFlight
import TaskQueue.Server.Pool

/-!
# Why a handler is stopped

A handler learns that it should stop from its context. The context is cancelled by `cancelJob`, from
`renewLoop`, or by `cancelJobs`, when a shutdown takes too long. To cancel one that is doing well
costs an attempt, so there should be a **cause** (`stopped_for_cause`): `Extend` reported the
job's lease lost, or `Extend` failed for the third time in a row with the job among those to renew,
or the timer of `drain` fired. And a cause should not be passed over.

That the failures are consecutive is a matter of the whole run, not of one step: the count is a
local variable of `renewLoop` that goes back to 0 in four places. It is compared here with the
outcomes of the rounds themselves (`Counted`): it is their number modulo three, so that a broker
that stays away makes `renewLoop` cancel what it has at every third failure.
-/

namespace TaskQueue.Server

variable {cfg : Config} {s s' : Worker} {a : Step} {i : ℕ} {e : Execution} {id : String}
  {h older newer : List (Turn Worker Step)} {t : Turn Worker Step}

/-! ### Rounds of the renewal loop -/

/-- How a round of `renewLoop` ended, if the step ends one: with an error of `Extend` or without. A
round without jobs to renew is one that went well. -/
def outcome : Step → Option Bool
  | .renew .failed => some false
  | .renew (.extended _) => some true
  | .renew (.read []) => some true
  | _ => none

/-- The outcomes of the rounds of a run, newest first. -/
def rounds (h : List (Turn Worker Step)) : List Bool := h.filterMap fun t ↦ outcome t.input

/-- How many rounds in a row have failed, up to the latest. -/
def streak (h : List (Turn Worker Step)) : ℕ := ((rounds h).takeWhile fun ok ↦ !ok).length

/-- The failures that `renewLoop` has counted. -/
def Renewal.failures : Renewal → ℕ
  | .sleeping failures => failures
  | .extending _ failures => failures
  | .cancelling _ => 0
  | .stopped => 0

/-- **Why `renewLoop` cancels a job**: the turn was an `Extend` that reported it lost, or one that
failed with the job among those to renew, for the third time in a row, or the sixth, and so on. -/
def Cause (t : Turn Worker Step) (older : List (Turn Worker Step)) (id : String) : Prop :=
  (∃ lost, t.input = .renew (.extended lost) ∧ id ∈ lost) ∨
  t.input = .renew .failed ∧ (∃ ids failures, t.before.renewal = .extending ids failures ∧
    id ∈ ids) ∧ maxRenewFailures ∣ streak (t :: older)

/-- The run has a cause to cancel the job. -/
def HasCause (h : List (Turn Worker Step)) (id : String) : Prop :=
  ∃ newer t older, h = newer ++ t :: older ∧ Cause t older id

theorem HasCause.cons (hcause : HasCause h id) (t : Turn Worker Step) : HasCause (t :: h) id := by
  obtain ⟨newer, t', older, rfl, hcause⟩ := hcause
  exact ⟨t :: newer, t', older, rfl, hcause⟩

theorem streak_of_none (hround : outcome t.input = none) : streak (t :: h) = streak h := by
  rw [streak, rounds, List.filterMap_cons, hround]
  rfl

theorem streak_of_failed (hround : outcome t.input = some false) :
    streak (t :: h) = streak h + 1 := by
  rw [streak, rounds, List.filterMap_cons, hround]
  rfl

theorem streak_of_ok (hround : outcome t.input = some true) : streak (t :: h) = 0 := by
  rw [streak, rounds, List.filterMap_cons, hround]
  rfl

/-- **What a step of `renewLoop` does**, one case for each way on. -/
inductive Renews (s : Worker) : RenewStep → Worker → Prop
  | idle (failures : ℕ) (hp : s.renewal = .sleeping failures) :
    Renews s (.read []) { s with renewal := .sleeping 0 }
  | read (ids : List String) (failures : ℕ) (hids : ids ≠ [])
    (hp : s.renewal = .sleeping failures) :
    Renews s (.read ids) { s with renewal := .extending ids failures }
  | stop (failures : ℕ) (hp : s.renewal = .sleeping failures) :
    Renews s .stop { s with renewal := .stopped }
  | extended (ids lost : List String) (failures : ℕ) (hp : s.renewal = .extending ids failures) :
    Renews s (.extended lost) { s with renewal := .cancelling lost }
  | giveUp (ids : List String) (failures : ℕ) (hp : s.renewal = .extending ids failures)
    (hmax : maxRenewFailures ≤ failures + 1) :
    Renews s .failed { s with renewal := .cancelling ids }
  | failed (ids : List String) (failures : ℕ) (hp : s.renewal = .extending ids failures)
    (hmax : ¬ maxRenewFailures ≤ failures + 1) :
    Renews s .failed { s with renewal := .sleeping (failures + 1) }
  | cancel (id : String) (rest : List String) (hp : s.renewal = .cancelling (id :: rest)) :
    Renews s .cancel { s.cancelJob id with renewal := .cancelling rest }
  | done (hp : s.renewal = .cancelling []) : Renews s .cancel { s with renewal := .sleeping 0 }

theorem renews_of_step {r : RenewStep} (hstep : renewLoop s s.renewal r = some s') :
    Renews s r s' := by
  generalize hp : s.renewal = p at hstep
  unfold renewLoop at hstep
  split at hstep
  · next failures ids =>
    split_ifs at hstep with hperm hids
    · subst hids
      obtain rfl := Option.some.inj hstep
      exact .idle failures hp
    · obtain rfl := Option.some.inj hstep
      exact .read ids failures hids hp
  · next failures =>
    split_ifs at hstep
    obtain rfl := Option.some.inj hstep
    exact .stop failures hp
  · next ids failures lost =>
    obtain rfl := Option.some.inj hstep
    exact .extended ids lost failures hp
  · next ids failures =>
    split_ifs at hstep with hmax
    · obtain rfl := Option.some.inj hstep
      exact .giveUp ids failures hp hmax
    · obtain rfl := Option.some.inj hstep
      exact .failed ids failures hp hmax
  · next id rest =>
    obtain rfl := Option.some.inj hstep
    exact .cancel id rest hp
  · obtain rfl := Option.some.inj hstep
    exact .done hp
  · cases hstep

/-- **What a step does to `renewLoop` and to the contexts.** Nobody else is in the way of the loop,
and an execution is cancelled by the loop or by its own goroutine at the end. -/
theorem renewal_of_step (hstep : step cfg s a = some s') :
    (s'.renewal = s.renewal ∧ outcome a = none ∧
      (s'.cancelCalls = s.cancelCalls ∨ ∃ i, a = .job i .untrack ∧
        s'.cancelCalls = i :: s.cancelCalls)) ∨
    ∃ r, a = .renew r ∧ Renews s r s' := by
  cases a with
  | cancel =>
    obtain rfl := Option.some.inj hstep
    exact .inl ⟨rfl, rfl, .inl rfl⟩
  | fetch a =>
    rw [step] at hstep
    split at hstep
    · rcases fetchLoop_cases hstep with ⟨j, -, -, rfl⟩ | ⟨i, e, -, -, -, rfl⟩ | ⟨n, c, rfl, -⟩
      all_goals exact .inl ⟨rfl, rfl, .inl rfl⟩
    · cases hstep
  | job i b =>
    obtain ⟨e, st, s₁, he, -, hs₁, rfl⟩ := runJob_eq_some hstep
    cases b with
    | untrack =>
      obtain rfl := Option.some.inj hs₁
      exact .inl ⟨rfl, rfl, .inr ⟨i, rfl, rfl⟩⟩
    | release =>
      rw [Worker.touch] at hs₁
      split_ifs at hs₁
      obtain rfl := Option.some.inj hs₁
      exact .inl ⟨rfl, rfl, .inl rfl⟩
    | _ =>
      obtain rfl := Option.some.inj hs₁
      exact .inl ⟨rfl, rfl, .inl rfl⟩
  | drain d =>
    obtain ⟨-, c, x, y, rfl, -⟩ := drain_cases hstep
    exact .inl ⟨rfl, rfl, .inl rfl⟩
  | renew r => exact .inr ⟨r, rfl, renews_of_step hstep⟩

/-! ### The causes -/

/-- **The count of `renewLoop` is right**, as long as the loop runs: it is the number of failures in
a row, less those it has already acted on. -/
def Counted (h : List (Turn Worker Step)) (s : Worker) : Prop :=
  s.renewal ≠ .stopped → s.renewal.failures = streak h % maxRenewFailures

theorem Counted.failures_eq (hcount : Counted h s) {p : Renewal} (hp : s.renewal = p)
    (hrunning : p ≠ .stopped) : p.failures = streak h % maxRenewFailures := by
  subst hp
  exact hcount hrunning

/-- A failure is acted on if it is the third, or the sixth, and so on. -/
theorem Counted.giveUp_iff (hcount : Counted h s) {ids : List String} {failures : ℕ}
    (hp : s.renewal = .extending ids failures) :
    maxRenewFailures ≤ failures + 1 ↔ maxRenewFailures ∣ streak h + 1 := by
  have hfailures : failures = streak h % maxRenewFailures :=
    hcount.failures_eq hp Renewal.noConfusion
  rw [hfailures, maxRenewFailures]
  omega

theorem counted_step (hcount : Counted h s) (hstep : step cfg s a = some s') :
    Counted (⟨s, a⟩ :: h) s' := by
  rcases renewal_of_step hstep with ⟨hsame, hnone, -⟩ | ⟨r, rfl, hrenews⟩
  · rw [Counted, hsame, streak_of_none hnone]
    exact hcount
  · intro hrunning
    cases hrenews with
    | idle failures hp =>
      rw [streak_of_ok rfl]
      rfl
    | read ids failures hids hp =>
      -- the round has only begun
      have hnone : outcome (.renew (.read ids)) = none := by
        rcases ids with - | ⟨id, ids⟩
        · exact absurd rfl hids
        · rfl
      have hfailures := hcount.failures_eq hp Renewal.noConfusion
      rw [streak_of_none hnone]
      exact hfailures
    | stop failures hp => exact absurd rfl hrunning
    | extended ids lost failures hp =>
      rw [streak_of_ok rfl]
      rfl
    | giveUp ids failures hp hmax =>
      rw [streak_of_failed rfl]
      exact (Nat.mod_eq_zero_of_dvd ((hcount.giveUp_iff hp).1 hmax)).symm
    | failed ids failures hp hmax =>
      have hfailures : failures = streak h % maxRenewFailures :=
        hcount.failures_eq hp Renewal.noConfusion
      rw [streak_of_failed rfl]
      show failures + 1 = _
      rw [maxRenewFailures] at *
      omega
    | cancel id rest hp =>
      have hfailures := hcount.failures_eq hp Renewal.noConfusion
      rw [streak_of_none rfl]
      exact hfailures
    | done hp =>
      have hfailures := hcount.failures_eq hp Renewal.noConfusion
      rw [streak_of_none rfl]
      exact hfailures

/-- What `renewLoop` is about to cancel it has a cause for. -/
def Justified (h : List (Turn Worker Step)) (s : Worker) : Prop :=
  ∀ ids, s.renewal = .cancelling ids → ∀ id ∈ ids, HasCause h id

theorem justified_step (hcount : Counted h s) (hjust : Justified h s)
    (hstep : step cfg s a = some s') : Justified (⟨s, a⟩ :: h) s' := by
  intro ids hids id hid
  rcases renewal_of_step hstep with ⟨hsame, -, -⟩ | ⟨r, rfl, hrenews⟩
  · exact (hjust ids (hsame.symm.trans hids) id hid).cons _
  · cases hrenews with
    | extended ids' lost failures hp =>
      obtain rfl := Renewal.cancelling.inj hids
      exact ⟨[], _, h, rfl, .inl ⟨lost, rfl, hid⟩⟩
    | giveUp ids' failures hp hmax =>
      obtain rfl := Renewal.cancelling.inj hids
      refine ⟨[], _, h, rfl, .inr ⟨rfl, ⟨ids', failures, hp, hid⟩, ?_⟩⟩
      rw [streak_of_failed rfl]
      exact (hcount.giveUp_iff hp).1 hmax
    | cancel id' rest hp =>
      obtain rfl := Renewal.cancelling.inj hids
      exact (hjust _ hp id (List.mem_cons_of_mem _ hid)).cons _
    | idle failures hp => cases hids
    | read ids' failures hids' hp => cases hids
    | stop failures hp => cases hids
    | failed ids' failures hp hmax => cases hids
    | done hp => cases hids

/-! ### The executions that are cancelled -/

/-- `runJob` is over. -/
def Stage.isOver : Stage → Bool
  | .untracked => true
  | .released => true
  | .finished => true
  | _ => false

theorem Stage.not_over_of_isTracked {st : Stage} (htracked : st.isTracked = true) :
    st.isOver = false ∧ st.isReported = false := by
  cases st with
  | running => exact ⟨rfl, rfl⟩
  | returned err => exact ⟨rfl, rfl⟩
  | _ => cases htracked

/-- An execution is of the same job for ever, and if it is not over after a step it was not before
it. -/
theorem execution_before (hs : Sound cfg s) (hstep : step cfg s a = some s') {e' : Execution}
    (he' : s'.executions[i]? = some e') :
    (∃ e, s.executions[i]? = some e ∧ e.job = e'.job ∧
      (e'.stage.isOver = false → e.stage.isOver = false)) ∨ s.executions[i]? = none := by
  rcases execution_of_step hstep i with
    ⟨b, e, st, rfl, he, hst, heq⟩ | ⟨-, heq | ⟨j, -, hnone, -⟩ | ⟨e, hctl, he, heq⟩⟩
  · rw [he'] at heq
    obtain rfl := Option.some.inj heq
    refine .inl ⟨e, he, rfl, fun hover ↦ ?_⟩
    rcases Stage.advance_cases hst with ⟨-, hst, -⟩ | ⟨o, -, hst, -⟩ | ⟨now, err, -, hst, -⟩ |
      ⟨-, hst, -⟩ | ⟨-, -, rfl⟩ | ⟨-, -, rfl⟩
    any_goals rw [hst]; rfl
    all_goals cases hover
  · exact .inl ⟨e', heq.symm.trans he', rfl, fun hover ↦ hover⟩
  · exact .inr hnone
  · rw [he'] at heq
    obtain rfl := Option.some.inj heq
    refine .inl ⟨e, he, rfl, fun _ ↦ ?_⟩
    rw [(hs.claimed i e he).2 hctl]
    rfl

/-- An execution stays, with its job. -/
theorem execution_after (hstep : step cfg s a = some s') (he : s.executions[i]? = some e) :
    ∃ e', s'.executions[i]? = some e' ∧ e'.job = e.job := by
  rcases execution_of_step hstep i with
    ⟨b, e₀, st, -, he₀, -, heq⟩ | ⟨-, heq | ⟨j, -, hnone, -⟩ | ⟨e₀, -, he₀, heq⟩⟩
  · obtain rfl := Option.some.inj (he₀.symm.trans he)
    exact ⟨_, heq, rfl⟩
  · exact ⟨e, heq.trans he, rfl⟩
  · rw [he] at hnone
    cases hnone
  · obtain rfl := Option.some.inj (he₀.symm.trans he)
    exact ⟨_, heq, rfl⟩

/-- **Who cancels an execution**: its own goroutine at the end, or `renewLoop`, by the map. -/
theorem cancelCalls_of_step (hstep : step cfg s a = some s') {k : ℕ} (hk : k ∈ s'.cancelCalls) :
    k ∈ s.cancelCalls ∨ a = .job k .untrack ∨ ∃ id rest, a = .renew .cancel ∧
      s.renewal = .cancelling (id :: rest) ∧ s.inFlight.lookup id = some k := by
  rcases renewal_of_step hstep with ⟨-, -, hsame | ⟨i, rfl, hcalls⟩⟩ | ⟨r, rfl, hrenews⟩
  · exact .inl (hsame ▸ hk)
  · rw [hcalls] at hk
    rcases List.mem_cons.1 hk with rfl | hk
    · exact .inr (.inl rfl)
    · exact .inl hk
  · cases hrenews with
    | cancel id rest hp =>
      change k ∈ (s.cancelJob id).cancelCalls at hk
      rcases hlook : s.inFlight.lookup id with - | k'
      · rw [Worker.cancelJob, hlook] at hk
        exact .inl hk
      · rw [cancelCalls_cancelJob.2 hlook] at hk
        rcases List.mem_cons.1 hk with rfl | hk
        · exact .inr (.inr ⟨id, rest, rfl, hp, hlook⟩)
        · exact .inl hk
    | _ => exact .inl hk

/-- The entries of the map are of executions of the job, and only executions are cancelled. -/
structure Points (s : Worker) : Prop where
  tracked : ∀ id k, s.inFlight.lookup id = some k →
    ∃ e, s.executions[k]? = some e ∧ e.job.id = id
  cancelled : ∀ k ∈ s.cancelCalls, ∃ e, s.executions[k]? = some e

theorem points_init : Points .init where
  tracked _ _ hlook := by cases hlook
  cancelled _ hk := by cases hk

theorem points_step (hs : Points s) (hstep : step cfg s a = some s') : Points s' := by
  have hold : ∀ id k, s.inFlight.lookup id = some k →
      ∃ e, s'.executions[k]? = some e ∧ e.job.id = id := by
    intro id k hlook
    obtain ⟨e, he, rfl⟩ := hs.tracked id k hlook
    obtain ⟨e', he', hjob⟩ := execution_after hstep he
    exact ⟨e', he', by rw [hjob]⟩
  refine ⟨fun id k hlook ↦ ?_, fun k hk ↦ ?_⟩
  · rcases inFlight_of_step hstep with ⟨i, e, -, he, hmap⟩ | ⟨i, e, -, -, hmap⟩ | ⟨hmap, -⟩
    · rw [hmap, Table.lookup_insert_eq] at hlook
      split_ifs at hlook with hid
      · obtain rfl := Option.some.inj hlook
        obtain ⟨e', he', hjob⟩ := execution_after hstep he
        exact ⟨e', he', by rw [hjob, hid]⟩
      · exact hold id k hlook
    · rw [hmap, Table.lookup_erase_eq] at hlook
      split_ifs at hlook
      exact hold id k hlook
    · exact hold id k (hmap ▸ hlook)
  · rcases cancelCalls_of_step hstep hk with hk | rfl | ⟨id, rest, -, -, hlook⟩
    · obtain ⟨e, he⟩ := hs.cancelled k hk
      obtain ⟨e', he', -⟩ := execution_after hstep he
      exact ⟨e', he'⟩
    · obtain ⟨e, st, s₁, he, -⟩ := runJob_eq_some hstep
      obtain ⟨e', he', -⟩ := execution_after hstep he
      exact ⟨e', he'⟩
    · obtain ⟨e, he, -⟩ := hold id k hlook
      exact ⟨e, he⟩

/-- Whoever is cancelled and not over has a cause. -/
def Caused (h : List (Turn Worker Step)) (s : Worker) : Prop :=
  ∀ k ∈ s.cancelCalls, ∀ e, s.executions[k]? = some e → e.stage.isOver = false →
    HasCause h e.job.id

theorem caused_step (hs : Sound cfg s) (hpoints : Points s) (hjust : Justified h s)
    (hcaused : Caused h s) (hstep : step cfg s a = some s') : Caused (⟨s, a⟩ :: h) s' := by
  intro k hk e' he' hover
  rcases execution_before hs hstep he' with ⟨e, he, hjob, hbefore⟩ | hnone
  · rw [← hjob]
    rcases cancelCalls_of_step hstep hk with hk | rfl | ⟨id, rest, -, hp, hlook⟩
    · exact (hcaused k hk e he (hbefore hover)).cons _
    · -- its own goroutine: `runJob` is over
      rcases execution_of_step hstep k with ⟨b, e₀, st, hb, -, hst, heq⟩ | ⟨hno, -⟩
      · obtain ⟨-, rfl⟩ := Step.job.inj hb
        obtain ⟨⟨⟩, -⟩ | ⟨_, ⟨⟩, -⟩ | ⟨_, _, ⟨⟩, -⟩ | ⟨-, -, rfl⟩ | ⟨⟨⟩, -⟩ | ⟨⟨⟩, -⟩ :=
          Stage.advance_cases hst
        rw [he'] at heq
        rw [Option.some.inj heq] at hover
        cases hover
      · exact absurd rfl (hno .untrack)
    · obtain ⟨e₀, he₀, rfl⟩ := hpoints.tracked id k hlook
      obtain rfl := Option.some.inj (he₀.symm.trans he)
      exact (hjust _ hp _ List.mem_cons_self).cons _
  · -- an execution that has only just begun is not in the list
    have hno (e : Execution) : s.executions[k]? ≠ some e := by
      rw [hnone]
      exact (Option.some_ne_none e).symm
    rcases cancelCalls_of_step hstep hk with hk | rfl | ⟨id, rest, -, -, hlook⟩
    · obtain ⟨e, he⟩ := hpoints.cancelled k hk
      exact absurd he (hno e)
    · obtain ⟨e, st, s₁, he, -⟩ := runJob_eq_some hstep
      exact absurd he (hno e)
    · obtain ⟨e, he, -⟩ := hpoints.tracked id k hlook
      exact absurd he (hno e)

/-! ### Every cause has its effect -/

theorem cancelCalls_mono (hstep : step cfg s a = some s') {k : ℕ} (hk : k ∈ s.cancelCalls) :
    k ∈ s'.cancelCalls := by
  rcases renewal_of_step hstep with ⟨-, -, hsame | ⟨i, -, hcalls⟩⟩ | ⟨r, rfl, hrenews⟩
  · exact hsame ▸ hk
  · rw [hcalls]
    exact List.mem_cons_of_mem _ hk
  · cases hrenews with
    | cancel id rest hp =>
      change k ∈ (s.cancelJob id).cancelCalls
      rcases hlook : s.inFlight.lookup id with - | k'
      · rw [Worker.cancelJob, hlook]
        exact hk
      · rw [cancelCalls_cancelJob.2 hlook]
        exact List.mem_cons_of_mem _ hk
    | _ => exact hk

/-- `renewLoop` is about to cancel the job, or it has called `cancelJob` for it in one of the turns,
and whoever had the entry of the job then is cancelled. -/
def Acted (newer : List (Turn Worker Step)) (s : Worker) (id : String) : Prop :=
  (∃ ids, s.renewal = .cancelling ids ∧ id ∈ ids) ∨
  ∃ t ∈ newer, t.input = .renew .cancel ∧ (∃ rest, t.before.renewal = .cancelling (id :: rest)) ∧
    ∀ k, t.before.inFlight.lookup id = some k → k ∈ s.cancelCalls

theorem acted_of_cause (hcount : Counted older t.before)
    (hstep : step cfg t.before t.input = some s') (hcause : Cause t older id) :
    Acted [] s' id := by
  obtain ⟨s, a⟩ := t
  rcases hcause with ⟨lost, rfl, hid⟩ | ⟨rfl, ⟨ids, failures, hp, hid⟩, hdvd⟩
  · cases renews_of_step hstep with
    | extended ids _ failures hp => exact .inl ⟨lost, rfl, hid⟩
  · rw [streak_of_failed rfl] at hdvd
    cases renews_of_step hstep with
    | giveUp ids' failures' hp' hmax =>
      obtain ⟨rfl, -⟩ := Renewal.extending.inj (hp.symm.trans hp')
      exact .inl ⟨ids, rfl, hid⟩
    | failed ids' failures' hp' hmax => exact absurd ((hcount.giveUp_iff hp').2 hdvd) hmax

theorem acted_step (hacted : Acted newer s id) (hstep : step cfg s a = some s') :
    Acted (⟨s, a⟩ :: newer) s' id := by
  rcases hacted with ⟨ids, hids, hid⟩ | ⟨t, ht, hinput, hhead, hcalls⟩
  · rcases renewal_of_step hstep with ⟨hsame, -, -⟩ | ⟨r, rfl, hrenews⟩
    · exact .inl ⟨ids, hsame.trans hids, hid⟩
    · cases hrenews with
      | cancel id' rest hp =>
        obtain rfl := Renewal.cancelling.inj (hids.symm.trans hp)
        rcases List.mem_cons.1 hid with rfl | hid
        · refine .inr ⟨_, List.mem_cons_self, rfl, ⟨rest, hp⟩, fun k hlook ↦ ?_⟩
          change k ∈ (s.cancelJob id).cancelCalls
          rw [cancelCalls_cancelJob.2 hlook]
          exact List.mem_cons_self
        · exact .inl ⟨rest, rfl, hid⟩
      | done hp =>
        obtain rfl := Renewal.cancelling.inj (hids.symm.trans hp)
        cases hid
      | idle failures hp => cases hids.symm.trans hp
      | read ids' failures hids' hp => cases hids.symm.trans hp
      | stop failures hp => cases hids.symm.trans hp
      | extended ids' lost failures hp => cases hids.symm.trans hp
      | giveUp ids' failures hp hmax => cases hids.symm.trans hp
      | failed ids' failures hp hmax => cases hids.symm.trans hp
  · exact .inr ⟨t, List.mem_cons_of_mem _ ht, hinput, hhead,
      fun k hlook ↦ cancelCalls_mono hstep (hcalls k hlook)⟩

/-! ### Shutdown -/

/-- The timer of `drain` fired. -/
def TimedOut (h : List (Turn Worker Step)) : Prop := ∃ t ∈ h, t.input = .drain .timeout

/-- `Run` is where it gets to only by the timer. -/
def Control.isLate : Control → Bool
  | .forcing => true
  | .stopping (some _) => true
  | .returned (some _) => true
  | _ => false

/-- `cancelJobs` is called by the timer, and at the end of `Run`. -/
structure Punctual (h : List (Turn Worker Step)) (s : Worker) : Prop where
  late : s.control.isLate = true → TimedOut h
  cancelled : s.jobsCancelled = true → TimedOut h ∨ s.control.endedWell = true

theorem TimedOut.cons (htimed : TimedOut h) (t : Turn Worker Step) : TimedOut (t :: h) := by
  obtain ⟨t', ht', heq⟩ := htimed
  exact ⟨t', List.mem_cons_of_mem _ ht', heq⟩

theorem punctual_drain {d : DrainStep} (hs : Punctual h s)
    (hstep : drain s s.control d = some s') : Punctual (⟨s, .drain d⟩ :: h) s' := by
  have hlate : s.control.isLate = true → TimedOut (⟨s, .drain d⟩ :: h) :=
    fun hlate ↦ (hs.late hlate).cons _
  have hcancelled : s.jobsCancelled = true →
      TimedOut (⟨s, .drain d⟩ :: h) ∨ s.control.endedWell = true :=
    fun hcancelled ↦ (hs.cancelled hcancelled).imp_left (·.cons _)
  generalize hctl : s.control = c at hstep hlate hcancelled
  unfold drain at hstep
  split at hstep
  · cases hstep
  · split_ifs at hstep
    obtain rfl := Option.some.inj hstep
    exact ⟨hctl ▸ hlate, hctl ▸ hcancelled⟩
  · split_ifs at hstep
    obtain rfl := Option.some.inj hstep
    exact ⟨Bool.noConfusion, fun _ ↦ .inr rfl⟩
  · split_ifs at hstep
    obtain rfl := Option.some.inj hstep
    exact ⟨Bool.noConfusion, fun _ ↦ .inr rfl⟩
  · obtain rfl := Option.some.inj hstep
    exact ⟨fun _ ↦ ⟨_, List.mem_cons_self, rfl⟩, fun _ ↦ .inl ⟨_, List.mem_cons_self, rfl⟩⟩
  · obtain rfl := Option.some.inj hstep
    exact ⟨fun _ ↦ ⟨_, List.mem_cons_self, rfl⟩, fun _ ↦ .inl ⟨_, List.mem_cons_self, rfl⟩⟩
  · next err =>
    split_ifs at hstep
    obtain rfl := Option.some.inj hstep
    rcases err with - | text
    · exact ⟨Bool.noConfusion, fun _ ↦ .inr rfl⟩
    · exact ⟨fun _ ↦ hlate rfl, fun _ ↦ .inl (hlate rfl)⟩
  · cases hstep

theorem punctual_step (hs : Punctual h s) (hstep : step cfg s a = some s') :
    Punctual (⟨s, a⟩ :: h) s' := by
  have hkeep (hctl : s'.control = s.control) (hjobs : s'.jobsCancelled = s.jobsCancelled) :
      Punctual (⟨s, a⟩ :: h) s' := by
    refine ⟨fun hlate ↦ (hs.late (hctl ▸ hlate)).cons _, fun hcancelled ↦ ?_⟩
    rw [hctl]
    exact (hs.cancelled (hjobs ▸ hcancelled)).imp_left (·.cons _)
  cases a with
  | cancel =>
    obtain rfl := Option.some.inj hstep
    exact hkeep rfl rfl
  | fetch a =>
    rw [step] at hstep
    split at hstep
    · next f hf =>
      -- a worker that still fetches has not come to its shutdown
      have hfetch (hcancelled : s.jobsCancelled = true) : TimedOut (⟨s, .fetch a⟩ :: h) := by
        rcases hs.cancelled hcancelled with htimed | hended
        · exact htimed.cons _
        · rw [hf] at hended
          cases hended
      rcases fetchLoop_cases hstep with
        ⟨j, -, -, rfl⟩ | ⟨i, e, -, -, -, rfl⟩ | ⟨n, c, rfl, -, -, rfl | ⟨f', rfl, -⟩, -⟩
      all_goals exact ⟨Bool.noConfusion, fun hcancelled ↦ .inl (hfetch hcancelled)⟩
    · cases hstep
  | job i b =>
    obtain ⟨e, st, s₁, he, -, hs₁, rfl⟩ := runJob_eq_some hstep
    cases b with
    | release =>
      rw [Worker.touch] at hs₁
      split_ifs at hs₁
      obtain rfl := Option.some.inj hs₁
      exact hkeep rfl rfl
    | _ =>
      obtain rfl := Option.some.inj hs₁
      exact hkeep rfl rfl
  | drain d => exact punctual_drain hs hstep
  | renew r =>
    obtain ⟨l, p, rfl⟩ := renewLoop_eq_some hstep
    exact hkeep rfl rfl

/-! ### Every run -/

/-- The context of an execution is done: its own cancel function was called, or that of all jobs. -/
def Worker.ctxDone (s : Worker) (i : ℕ) : Prop := i ∈ s.cancelCalls ∨ s.jobsCancelled = true

/-- What holds of a worker and its history at every moment. -/
structure Explained (cfg : Config) (h : List (Turn Worker Step)) (s : Worker) : Prop where
  sound : Sound cfg s
  counted : Counted h s
  points : Points s
  justified : Justified h s
  caused : Caused h s
  punctual : Punctual h s

theorem explained_of_run (hrun : Run cfg h s) : Explained cfg h s := by
  refine Run.induct (P := Explained cfg) ?_ ?_ hrun
  · refine ⟨sound_init cfg, fun _ ↦ rfl, points_init, ?_, ?_, ?_⟩
    · intro ids hids
      cases hids
    · intro k hk
      cases hk
    · exact ⟨Bool.noConfusion, Bool.noConfusion⟩
  · intro h s a s' hs hstep
    exact ⟨sound_step hs.sound hstep, counted_step hs.counted hstep, points_step hs.points hstep,
      justified_step hs.counted hs.justified hstep,
      caused_step hs.sound hs.points hs.justified hs.caused hstep,
      punctual_step hs.punctual hstep⟩

theorem acted_of_run : ∀ {newer : List (Turn Worker Step)} {s : Worker},
    Run cfg (newer ++ t :: older) s → Cause t older id → Acted newer s id
  | [], s, hrun, hcause => by
    obtain ⟨hbefore, hok, rfl⟩ := hrun.of_cons
    obtain ⟨s', hs'⟩ := Option.isSome_iff_exists.1 hok
    rw [show (machine cfg).after t = s' from congrArg (·.getD t.before) hs']
    exact acted_of_cause (explained_of_run hbefore).counted hs' hcause
  | t' :: newer, s, hrun, hcause => by
    obtain ⟨hbefore, hok, rfl⟩ := hrun.of_cons
    obtain ⟨s', hs'⟩ := Option.isSome_iff_exists.1 hok
    rw [show (machine cfg).after t' = s' from congrArg (·.getD t'.before) hs']
    exact acted_step (acted_of_run hbefore hcause) hs'

/-- **A handler is stopped for a cause, and every cause stops it.** In every run of a worker,
whatever the broker answers and however the goroutines interleave:

* if the context of an execution is done while its job is between `trackJob` and the report, then
  an `Extend` has reported the lease of the job lost, or `Extend` has failed three times in a row
  (or six, and so on) and was to renew this job the last time, or the shutdown has taken longer than
  its timeout;
* and once there is such a cause, `renewLoop` is about to cancel the job until it has called
  `cancelJob` for it, which cancels whoever has the entry of the job then. -/
theorem stopped_for_cause (hrun : (machine cfg).Run (Possible cfg) h s) :
    (∀ i e, s.executions[i]? = some e → e.stage.isTracked = true → s.ctxDone i →
      HasCause h e.job.id ∨ TimedOut h) ∧
    ∀ newer t older id, h = newer ++ t :: older → Cause t older id → Acted newer s id := by
  refine ⟨fun i e he htracked hdone ↦ ?_, fun newer t older id heq hcause ↦ ?_⟩
  · have hs := explained_of_run hrun
    obtain ⟨hover, hreported⟩ := Stage.not_over_of_isTracked htracked
    rcases hdone with hcall | hall
    · exact .inl (hs.caused i hcall e he hover)
    · rcases hs.punctual.cancelled hall with htimed | hended
      · exact .inr htimed
      · -- `Run` returns nil only after every report
        have hended := hs.sound.reported_of_ended hended he
        rw [hreported] at hended
        cases hended
  · subst heq
    exact acted_of_run hrun hcause

/-- The broker cannot be reached any more: three renewals of job `a` fail, and its handler is
cancelled. -/
def unreachable : List Step :=
  [.fetch .acquire, .fetch (.dequeue (.job { Job.plain "q" "t" 3 with id := "a", attempt := 1 })),
    .fetch .launch, .job 0 .track, .renew (.read ["a"]), .renew .failed, .renew (.read ["a"]),
    .renew .failed, .renew (.read ["a"]), .renew .failed, .renew .cancel]

theorem stopped_for_cause_unreachable : ∃ cfg h s, (machine cfg).Run (Possible cfg) h s ∧
    (∃ e, s.executions[0]? = some e ∧ e.stage = .running) ∧ s.ctxDone 0 ∧ HasCause h "a" := by
  have hrun : (machine ⟨"w", 2, fun _ ↦ 0⟩).Run (Possible ⟨"w", 2, fun _ ↦ 0⟩) _ _ :=
    .play unreachable .start (by decide +kernel)
  refine ⟨_, _, _, hrun, ⟨_, rfl, by decide +kernel⟩, .inl (by decide +kernel), ?_⟩
  rcases (stopped_for_cause hrun).1 0 _ rfl (by decide +kernel) (.inl (by decide +kernel)) with
    hcause | ⟨t, ht, hinput⟩
  · exact hcause
  · exfalso
    revert t
    decide +kernel

end TaskQueue.Server
