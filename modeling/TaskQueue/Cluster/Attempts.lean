import TaskQueue.Cluster.Leases

/-!
# What an attempt number is good for

Delivery is at least once, so a handler has to expect that the same job runs twice, one after the
other or at the same time, in this process, in another one, or in the one that died. What it can
tell the runs apart by is the **attempt number** of the job it is given: Redis counts the claims of
a job, and every answer to a `Dequeue` carries the count. So no two calls of a handler get the same
job ID with the same attempt number, whatever happens to the servers (`Numbered` is the invariant,
`Numbered.next` its step).
-/

namespace TaskQueue.Redis

variable {cfg : Config} {s : Store} {h : List (Turn Store Call)} {c : Call}

/-- The attempt number of a delivery counts the claims. -/
theorem attempt_of_claimed {o : ClaimOpts} {j : Job} (hrun : (machine cfg).Run (Fresh cfg) h s)
    (hop : c.op = .dequeue o) (hclaim : (exec cfg s c).1 = .claimed j) :
    j.attempt = claims cfg h j.id + 1 ∧ claims cfg (⟨s, c⟩ :: h) j.id = claims cfg h j.id + 1 := by
  have hloc := (lives_of_fresh hrun).1
  obtain ⟨id, e, he, -, hdecode⟩ := hash_of_claimed hloc hop hclaim
  obtain ⟨-, hid, hattempt⟩ := decodeJob_ok hdecode
  have hkey : e.hash.id = id := hloc.keyed id e he
  refine ⟨?_, ?_⟩
  · rw [hattempt, show j.id = id from hid.trans hkey, ← (counts_of_run hrun he).1]
    rfl
  · obtain ⟨hash, hnext, hdecode'⟩ := (claimed_iff hop).1 hclaim
    have hclaimOf : claimOf cfg ⟨s, c⟩ = some j.id := by
      rw [(decodeJob_ok hdecode').2.1]
      simp only [claimOf, hop, hnext]
    rw [claims, List.countP_cons, decide_eq_true hclaimOf]
    rfl

end TaskQueue.Redis

namespace TaskQueue.Server

/-- The handler has not been called. -/
def Stage.isWaiting : Stage → Bool
  | .claimed => true
  | .started => true
  | _ => false

/-- A step of its goroutine leaves no execution waiting. -/
theorem Stage.not_waiting_of_advance {st st' : Stage} {b : JobStep}
    (hst : st.advance b = some st') : st'.isWaiting = false := by
  rcases Stage.advance_cases hst with ⟨-, -, rfl⟩ | ⟨o, -, -, rfl⟩ | ⟨now, err, -, -, rfl⟩ |
    ⟨-, -, rfl⟩ | ⟨-, -, rfl⟩ | ⟨-, -, rfl⟩ <;> rfl

end TaskQueue.Server

namespace TaskQueue.Cluster

open Redis (Store Call Op Config exec)
open Scheduler (Fate)
open Server (Worker Execution)

variable {H ι : Type} [DecidableEq ι] {nodes : ι → Node H} {cfg : Config} {quote : String → String}
  {h : List (Turn (System ι) (Move ι))} {s : System ι} {m : Move ι} {i : ι} {k : ℕ} {id : String}

/-- At the turn a server calls its handler on job `j`. -/
def Begins (t : Turn (System ι) (Move ι)) (j : Job) : Prop :=
  ∃ i k e now fate, t.input = .act i (.own (.job k .track)) now fate ∧
    (t.before.worker i).executions[k]? = some e ∧ e.job = j

/-- **Where an execution comes from**: it was there, and if the handler was not called at this move
then it is waiting if it was, or it is one of the job that Redis has just given to the server. -/
theorem execution_of_next (hrun : (machine nodes cfg).Run (Works nodes cfg quote) h s)
    (hok : Works nodes cfg quote h s m) {e' : Execution}
    (he' : ((next nodes cfg s m).worker i).executions[k]? = some e') :
    (∃ e, (s.worker i).executions[k]? = some e ∧ e'.job = e.job ∧
      (e'.stage.isWaiting = true → e.stage.isWaiting = true ∧
        ∀ now fate, m ≠ .act i (.own (.job k .track)) now fate)) ∨
    ∃ queues now, m = .act i (.poll queues) now .answered ∧
      (exec cfg s.store ⟨now, .dequeue
        ⟨(nodes i).config.workerID, queues, (nodes i).visibilityTimeout⟩⟩).1 = .claimed e'.job ∧
      k = (s.worker i).executions.length := by
  rcases worker_next hok i with ⟨a, now, fate, w', rfl, hw', hstep⟩ | ⟨rfl, hw'⟩ | ⟨hact, -, hw'⟩
  · rw [hw'] at he'
    rcases Server.execution_of_step hstep k with ⟨b, e, st, htaken, he, hst, heq⟩ |
      ⟨hother, hcases⟩
    · obtain rfl := Option.some.inj (heq.symm.trans he')
      refine .inl ⟨e, he, rfl, fun hwaits ↦ ?_⟩
      rw [Server.Stage.not_waiting_of_advance hst] at hwaits
      cases hwaits
    have hnever : ∀ now' fate',
        Move.act i a now fate ≠ .act i (.own (.job k .track)) now' fate' := by
      rintro now' fate' ⟨⟩
      exact hother _ rfl
    rcases hcases with heq | ⟨j, htaken, hnone, heq⟩ | ⟨e, hctl, he, heq⟩
    · exact .inl ⟨e', heq.symm.trans he', rfl, fun hwaits ↦ ⟨hwaits, hnever⟩⟩
    · obtain rfl := Option.some.inj (heq.symm.trans he')
      obtain ⟨queues, rfl, rfl, hclaim⟩ := claimed_of_taken hok.2.2.1 htaken
      rw [htaken] at hstep
      exact .inr ⟨queues, now, rfl, hclaim, index_of_claimed hstep hnone he'⟩
    · obtain rfl := Option.some.inj (heq.symm.trans he')
      refine .inl ⟨e, he, rfl, fun _ ↦ ⟨?_, hnever⟩⟩
      rw [((Server.sound_of_run (run_worker hrun i)).claimed k e he).2 hctl]
      rfl
  · rw [hw'] at he'
    cases he'
  · rw [hw'] at he'
    exact .inl ⟨e', he', rfl, fun hwaits ↦ ⟨hwaits, fun now fate ↦ hact _ now fate⟩⟩

omit [DecidableEq ι] in
/-- The handler is called on a job whose execution was waiting for it. -/
theorem waiting_of_begins (hok : Works nodes cfg quote h s m) {j : Job}
    (hbegins : Begins ⟨s, m⟩ j) : ∃ i k e now fate, m = .act i (.own (.job k .track)) now fate ∧
      (s.worker i).executions[k]? = some e ∧ e.job = j ∧ e.stage.isWaiting = true := by
  obtain ⟨i, k, e, now, fate, hm, he, hjob⟩ := hbegins
  change m = _ at hm
  subst hm
  obtain ⟨w', hstep⟩ := Option.isSome_iff_exists.1 hok.2.1
  obtain ⟨e₀, st, s₁, he₀, hst, -⟩ := Server.runJob_eq_some hstep
  obtain rfl := Option.some.inj (he₀.symm.trans he)
  refine ⟨i, k, e₀, now, fate, rfl, he, hjob, ?_⟩
  rcases Server.Stage.advance_cases hst with ⟨-, hfrom, -⟩ | ⟨_, ⟨⟩, -⟩ | ⟨_, _, ⟨⟩, -⟩ | ⟨⟨⟩, -⟩ |
    ⟨⟨⟩, -⟩ | ⟨⟨⟩, -⟩
  rw [hfrom]
  rfl

/-! ### The invariant -/

variable (nodes cfg) in
/-- The attempt number of the job has been given out. -/
def Used (h : List (Turn (System ι) (Move ι))) (j : Job) : Prop :=
  j.attempt ≤ Redis.claims cfg (calls nodes h) j.id

/-- The jobs carry the same attempt of the same job. -/
def SameAttempt (j j' : Job) : Prop := j.id = j'.id ∧ j.attempt = j'.attempt

variable (nodes cfg) in
/-- The attempt numbers of the executions and of the calls of handlers. -/
structure Numbered (h : List (Turn (System ι) (Move ι))) (s : System ι) : Prop where
  used : ∀ i (k : ℕ) e, (s.worker i).executions[k]? = some e → Used nodes cfg h e.job
  called : ∀ t ∈ h, ∀ j, Begins t j → Used nodes cfg h j
  apart : ∀ i (k : ℕ) i' (k' : ℕ) e e', (s.worker i).executions[k]? = some e →
    (s.worker i').executions[k']? = some e' → SameAttempt e.job e'.job → i = i' ∧ k = k'
  begun : ∀ t ∈ h, ∀ j, Begins t j → ∀ i (k : ℕ) e, (s.worker i).executions[k]? = some e →
    SameAttempt e.job j → e.stage.isWaiting = false
  once : h.Pairwise fun newer older ↦ ∀ j j', Begins newer j → Begins older j' → ¬ SameAttempt j j'

omit [DecidableEq ι] in
theorem Used.cons {j : Job} (hused : Used nodes cfg h j) : Used nodes cfg (⟨s, m⟩ :: h) j := by
  refine hused.trans (Int.ofNat_le.2 ?_)
  rw [calls_cons, Redis.claims, Redis.claims, List.countP_append]
  exact Nat.le_add_left _ _

/-- A job that is given to a server has an attempt number that was not used before, and now is. -/
theorem used_of_claimed (hrun : (machine nodes cfg).Run (Works nodes cfg quote) h s)
    {queues : List String} {now : ℤ} {j : Job}
    (hclaim : (exec cfg s.store ⟨now, .dequeue
      ⟨(nodes i).config.workerID, queues, (nodes i).visibilityTimeout⟩⟩).1 = .claimed j) :
    Used nodes cfg (⟨s, .act i (.poll queues) now .answered⟩ :: h) j ∧
      ∀ j', Used nodes cfg h j' → ¬ SameAttempt j j' := by
  obtain ⟨hattempt, hcount⟩ := Redis.attempt_of_claimed (fresh_calls hrun) rfl hclaim
  constructor
  · rw [Used, hattempt,
      calls_of_some (show callOf nodes s (.act i (.poll queues) now .answered) = some _ from rfl),
      hcount]
    rfl
  · rintro j' hused ⟨hid, hsame⟩
    rw [Used, ← hid, ← hsame, hattempt] at hused
    exact absurd hused (Int.lt_succ _).not_ge

/-- **One move keeps the numbering.** -/
theorem Numbered.next (hrun : (machine nodes cfg).Run (Works nodes cfg quote) h s)
    (hok : Works nodes cfg quote h s m) (hnum : Numbered nodes cfg h s) :
    Numbered nodes cfg (⟨s, m⟩ :: h) (next nodes cfg s m) := by
  have hcalled : ∀ j, Begins ⟨s, m⟩ j → Used nodes cfg h j ∧
      ∀ t ∈ h, ∀ j', Begins t j' → ¬ SameAttempt j j' := by
    intro j hbegins
    obtain ⟨i, k, e, now, fate, -, he, rfl, hwaits⟩ := waiting_of_begins hok hbegins
    refine ⟨hnum.used i k e he, fun t ht j' hbegins' hsame ↦ ?_⟩
    rw [hnum.begun t ht j' hbegins' i k e he hsame] at hwaits
    cases hwaits
  refine ⟨fun i k e' he' ↦ ?_, fun t ht j hbegins ↦ ?_, fun i k i' k' e₁ e₂ he₁ he₂ hsame ↦ ?_,
    fun t ht j hbegins i k e' he' hsame ↦ ?_, ?_⟩
  · rcases execution_of_next hrun hok he' with ⟨e, he, hjob, -⟩ | ⟨queues, now, rfl, hclaim, -⟩
    · rw [hjob]
      exact (hnum.used i k e he).cons
    · exact (used_of_claimed hrun hclaim).1
  · rcases List.mem_cons.1 ht with rfl | ht
    · exact (hcalled j hbegins).1.cons
    · exact (hnum.called t ht j hbegins).cons
  · rcases execution_of_next hrun hok he₁ with ⟨e, he, hjob, -⟩ | ⟨queues, now, rfl, hclaim, hk⟩
    · rcases execution_of_next hrun hok he₂ with ⟨e', he', hjob', -⟩ | ⟨queues, now, rfl, hclaim, -⟩
      · exact hnum.apart i k i' k' e e' he he' (hjob ▸ hjob' ▸ hsame)
      · have hused := hjob.symm ▸ hnum.used i k e he
        exact absurd ⟨hsame.1.symm, hsame.2.symm⟩ ((used_of_claimed hrun hclaim).2 _ hused)
    · rcases execution_of_next hrun hok he₂ with ⟨e', he', hjob', -⟩ | ⟨_, _, hm, -, hk'⟩
      · have hused := hjob'.symm ▸ hnum.used i' k' e' he'
        exact absurd hsame ((used_of_claimed hrun hclaim).2 _ hused)
      · obtain rfl := (Move.act.inj hm).1
        exact ⟨rfl, hk.trans hk'.symm⟩
  · rcases execution_of_next hrun hok he' with ⟨e, he, hjob, hstays⟩ | ⟨queues, now, rfl, hclaim, -⟩
    · rw [hjob] at hsame
      by_contra hwaits
      obtain ⟨hbefore, hnever⟩ := hstays (Bool.of_not_eq_false hwaits)
      rcases List.mem_cons.1 ht with rfl | ht
      · -- the execution is the one whose handler is called
        obtain ⟨i', k', e₀, now, fate, rfl, he₀, rfl, -⟩ := waiting_of_begins hok hbegins
        obtain ⟨rfl, rfl⟩ := hnum.apart i k i' k' e e₀ he he₀ hsame
        exact hnever now fate rfl
      · rw [hnum.begun t ht j hbegins i k e he hsame] at hbefore
        cases hbefore
    · have hused : Used nodes cfg h j := by
        rcases List.mem_cons.1 ht with rfl | ht
        · exact (hcalled j hbegins).1
        · exact hnum.called t ht j hbegins
      exact absurd hsame ((used_of_claimed hrun hclaim).2 _ hused)
  · refine List.pairwise_cons.2 ⟨fun t ht j j' hbegins hbegins' ↦ ?_, hnum.once⟩
    exact (hcalled j hbegins).2 t ht j' hbegins'

theorem numbered_of_run (hrun : (machine nodes cfg).Run (Works nodes cfg quote) h s) :
    Numbered nodes cfg h s := by
  induction hrun with
  | start =>
    refine ⟨fun i k e he ↦ ?_, by simp, fun i k i' k' e e' he ↦ ?_, by simp, .nil⟩
    · cases he
    · cases he
  | step m hrun hok ih => exact ih.next hrun hok

/-- **An attempt is made once.** Of all the calls of handlers, on any server and before and after
any crash, no two are given the same job with the same attempt number. -/
theorem attempt_made_once (hrun : (machine nodes cfg).Run (Works nodes cfg quote) h s) :
    h.Pairwise fun newer older ↦ ∀ j j', Begins newer j → Begins older j' → j.id = j'.id →
      j.attempt ≠ j'.attempt := by
  refine (numbered_of_run hrun).once.imp fun hapart j j' hj hj' hid hsame ↦ ?_
  exact hapart j j' hj hj' ⟨hid, hsame⟩

/-- A server starts on a job, its lease runs out, and another one starts on it. -/
def startedTwice : List (Move Bool) :=
  [.call ⟨0, .enqueue "job" 0 (some (.plain "q" "t" 3))⟩,
    .act false (.own (.fetch .acquire)) 0 .answered, .act false (.poll ["q"]) 0 .answered,
    .act false (.own (.fetch .launch)) 0 .answered, .act false (.own (.job 0 .track)) 0 .answered,
    .call ⟨5, .reap "q" 10⟩, .act true (.own (.fetch .acquire)) 5 .answered,
    .act true (.poll ["q"]) 6 .answered, .act true (.own (.fetch .launch)) 6 .answered,
    .act true (.own (.job 0 .track)) 6 .answered]

theorem run_startedTwice : (machine twoServers .default).Run
    (Works twoServers .default String.quote) (played startedTwice).1 (played startedTwice).2 := by
  refine .play startedTwice .start ⟨⟨⟨⟨?_, ?_⟩, ?_⟩, rfl⟩, ⟨?_, ?_, ?_, ?_⟩, ⟨?_, ?_, ?_, ?_⟩,
    ⟨?_, ?_, ?_, ?_⟩, ⟨?_, ?_, ?_, ?_⟩, ⟨⟨⟨?_, ?_⟩, ?_⟩, rfl⟩, ⟨?_, ?_, ?_, ?_⟩, ⟨?_, ?_, ?_, ?_⟩,
    ⟨?_, ?_, ?_, ?_⟩, ⟨?_, ?_, ?_, ?_⟩, trivial⟩
  all_goals first | decide +kernel | simp [isLocal, calls]

theorem attempt_made_once_twoServers : ∃ newer older between earlier j j',
    (played startedTwice).1 = newer :: (between ++ older :: earlier) ∧ Begins newer j ∧
    Begins older j' ∧ j.id = j'.id ∧ j.attempt ≠ j'.attempt := by
  obtain ⟨newer, t₁, t₂, t₃, t₄, older, earlier, heq, hnewer, holder⟩ :
      ∃ newer t₁ t₂ t₃ t₄ older earlier, (played startedTwice).1 =
        newer :: t₁ :: t₂ :: t₃ :: t₄ :: older :: earlier ∧ (∃ j, Begins newer j ∧ j.id = "job") ∧
        ∃ j, Begins older j ∧ j.id = "job" :=
    ⟨_, _, _, _, _, _, _, rfl, ⟨_, ⟨_, _, _, _, _, rfl, rfl, rfl⟩, rfl⟩,
      ⟨_, ⟨_, _, _, _, _, rfl, rfl, rfl⟩, rfl⟩⟩
  obtain ⟨j, hj, hid⟩ := hnewer
  obtain ⟨j', hj', hid'⟩ := holder
  have hpair := attempt_made_once run_startedTwice
  rw [heq] at hpair
  refine ⟨newer, older, [t₁, t₂, t₃, t₄], earlier, j, j', heq, hj, hj', hid.trans hid'.symm, ?_⟩
  exact (List.pairwise_cons.1 hpair).1 older (by simp) j j' hj hj' (hid.trans hid'.symm)

end TaskQueue.Cluster
