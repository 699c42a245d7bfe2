import TaskQueue.Memory.Kept
import TaskQueue.Memory.Lease
import TaskQueue.Transitions

/-!
# Nothing runs early

A job may be told to wait twice: by the `RunAt` it is enqueued with, and by the `retryAt` of a
`Nack`. The broker enforces both in two places only, the routing of `Enqueue` and the filter of
`Promote`, while a job can reach a ready list by four operations. That no path bypasses the wait is
a property of one job's life: a job that waits can do nothing but be **promoted**, not before its
time, and a job that does not wait is not promoted before its next report
(`Life.promoted_of_delayed`, `Life.not_promoted_of_ready`).

The life remembers the time a job waits for, not the `RunAt` in its envelope. That the two are the
same at the claim is a fact about tasks: the envelope that a claim returns is the one `Enqueue`
stored, up to the bookkeeping of running it.
-/

namespace TaskQueue.Memory

open Keyed Broker

/-- The job that the turn's `Dequeue` returned. -/
def claimOf (t : Turn Broker Call) : Option String :=
  match reply t with
  | .claimed j => some j.id
  | _ => none

/-- A `Nack` of the job succeeded and put it into the retry set, due again at `r`. -/
def SentToRetry (t : Turn Broker Call) (id : String) (r : Time) : Prop :=
  (∃ w reason, t.input.op = .nack w id r reason) ∧ reply t = .done ∧
    stateOf (machine.after t) id = .retry

/-- The turn was a `Promote` that found the job scheduled or retrying and made it pending. -/
def promotes (t : Turn Broker Call) (id : String) : Bool :=
  match t.input.op with
  | .promote _ =>
    (decide (stateOf t.before id = .scheduled) || decide (stateOf t.before id = .retry)) &&
      decide (stateOf (machine.after t) id = .pending)
  | _ => false

variable {b : Broker} {c : Call} {t : Turn Broker Call} {h newer older : List (Turn Broker Call)}
  {id : String} {j : Job} {r : Time}

theorem claimOf_eq_some : claimOf t = some id ↔ ∃ j, reply t = .claimed j ∧ j.id = id := by
  rw [claimOf]
  split
  · next j hj => simp [hj]
  · next hne => simpa using fun j hj ↦ absurd hj (hne j)

/-! ### Tasks -/

/-- What a call does to the tasks: those stored after it were stored before, or it is the `Enqueue`
that stored them. -/
theorem tasks_exec {j' : Job} (hj' : (exec b c).2.jobs.lookup id = some j') :
    (∃ j, b.jobs.lookup id = some j ∧ j.SameTask j') ∨
      ∃ newID o j, c.op = .enqueue newID o ∧ (exec b c).1 = .stored j ∧ j.id = id ∧
        j.SameTask j' := by
  obtain ⟨now, op⟩ := c
  have hsame : (exec b ⟨now, op⟩).2.jobs = b.jobs →
      ∃ j, b.jobs.lookup id = some j ∧ j.SameTask j' :=
    fun heq ↦ ⟨j', heq ▸ hj', .refl j'⟩
  cases op with
  | enqueue newID o =>
    rcases enqueue_cases b now newID o with ⟨e, heq⟩ | ⟨j, rfl, heq⟩
    · exact .inl (hsame (by simp [exec, heq]))
    · have hstore : (exec b ⟨now, .enqueue newID (some j)⟩).2 =
          b.store now (stamped now newID j) := by simp [exec, heq]
      rw [hstore, lookup_store] at hj'
      by_cases hid : id = (stamped now newID j).id
      · rw [if_pos hid] at hj'
        obtain rfl := Option.some.inj hj'
        exact .inr ⟨newID, some j, _, rfl, by simp [exec, heq, Reply.of], hid.symm, rfl⟩
      · rw [if_neg hid] at hj'
        exact .inl ⟨j', hj', .refl j'⟩
  | acquireLease n a ttl => exact .inl (hsame (sameJobs_acquireLease n a ttl).jobs)
  | releaseLease n a => exact .inl (hsame (sameJobs_releaseLease n a).jobs)
  | scheduleCronIfAbsent i at' => exact .inl (hsame (sameJobs_scheduleCronIfAbsent i at').jobs)
  | claimCron i at' next => exact .inl (hsame (sameJobs_claimCron i at' next).jobs)
  | removeCron i => exact .inl (hsame (sameJobs_removeCron i).jobs)
  | _ => exact .inl ((keeps_exec rfl (by simp)).tasks id j' hj')

/-- **A stored job is the task that was enqueued.** -/
theorem stored_of_run {ok : List (Turn Broker Call) → Broker → Call → Prop}
    (hrun : machine.Run ok h b) : ∀ id j', b.jobs.lookup id = some j' →
      ∃ t ∈ h, ∃ newID o j, t.input.op = .enqueue newID o ∧ reply t = .stored j ∧ j.id = id ∧
        j.SameTask j' := by
  refine hrun.invariant (P := fun h b ↦ ∀ id j', b.jobs.lookup id = some j' →
    ∃ t ∈ h, ∃ newID o j, t.input.op = .enqueue newID o ∧ reply t = .stored j ∧ j.id = id ∧
      j.SameTask j') ?_ ?_
  · intro id j' hj'
    cases hj'
  · intro h b c _ hP _ id j' hj'
    rcases tasks_exec hj' with ⟨j, hj, hsame⟩ | hnew
    · obtain ⟨t, ht, newID, o, j₀, hop, hreply, hid, hsame₀⟩ := hP id j hj
      exact ⟨t, List.mem_cons_of_mem _ ht, newID, o, j₀, hop, hreply, hid, hsame₀.trans hsame⟩
    · exact ⟨_, List.mem_cons_self, hnew⟩

/-! ### Promotions -/

theorem promotes_iff (hloc : Located t.before) (hsafe : Safe t.before t.input.op) :
    promotes t id = true ↔ ∃ now, (id, .promoted now) ∈ events t.before t.input := by
  constructor
  · intro hpro
    unfold promotes at hpro
    split at hpro
    · next limit hop =>
      simp only [Bool.and_eq_true, Bool.or_eq_true, decide_eq_true_eq] at hpro
      have hchange : (exec t.before t.input).2.jobs.lookup id ≠ t.before.jobs.lookup id := by
        intro heq
        have hstate : stateOf (machine.after t) id = stateOf t.before id :=
          congrArg (fun o : Option Job ↦ o.elim State.none Job.state) heq
        rw [hpro.2] at hstate
        rcases hpro.1 with h | h <;> rw [h] at hstate <;> cases hstate
      obtain ⟨e, he⟩ : ∃ e, (id, e) ∈ events t.before t.input := by
        by_contra hnone
        exact hchange ((steps_exec hloc hsafe).frame id fun e he ↦ hnone ⟨e, he⟩)
      have hdid := mem_events_iff.1 he
      cases e with
      | promoted now => exact ⟨now, he⟩
      | _ => simp [Did, hop] at hdid
    · cases hpro
  · rintro ⟨now, hmem⟩
    obtain ⟨limit, n, hop, -⟩ := mem_events_iff.1 hmem
    have hevs := (amounts_events hloc hsafe).eventsAt_eq hmem rfl
    obtain ⟨o, hfold, hshown⟩ := fold_of_exec hloc hsafe id
    have hadv : Life.advance spent (t.before.life id) (.promoted now) = some o := by
      simpa [hevs] using hfold
    obtain ⟨hsrc, hdst⟩ := Life.states_of_advance hadv
    have hafter : stateOf (machine.after t) id = .pending := by
      have hview := Life.stateOf_of_shown hshown (by rw [hdst]; decide)
      rw [stateOf_life (steps_exec hloc hsafe).located, hdst] at hview
      exact hview
    rw [stateOf_life hloc] at hsrc
    simp [promotes, hop, hsrc, hafter]

/-- A turn promotes a job at most once. -/
theorem countP_isPromotion_events (hloc : Located t.before) (hsafe : Safe t.before t.input.op) :
    (eventsAt id (events t.before t.input)).countP Event.isPromotion =
      if promotes t id then 1 else 0 := by
  split_ifs with hpro
  · obtain ⟨now, hmem⟩ := (promotes_iff hloc hsafe).1 hpro
    rw [(amounts_events hloc hsafe).eventsAt_eq hmem rfl]
    rfl
  · refine List.countP_eq_zero.2 fun e he hkind ↦ hpro ?_
    cases e with
    | promoted now => exact (promotes_iff hloc hsafe).2 ⟨now, mem_eventsAt.1 he⟩
    | _ => cases hkind

/-! ### The theorem -/

/-- The envelope a claim returns waited for its `RunAt`. -/
theorem runAt_le_of_claimed (hrun : machine.Run Admissible (t :: h) b)
    (hclaim : reply t = .claimed j) : j.runAt ≤ t.input.now := by
  obtain ⟨hprev, hok, rfl⟩ := hrun.of_cons
  obtain ⟨o, q, rest, j₁, hop, -, hj₁, hjeq, -⟩ := claimed_of_exec (located_of_run hprev) hclaim
  obtain ⟨u, hu, newID, o', j₀, hop', hreply, hid, hsame⟩ := stored_of_run hprev j.id j₁ hj₁
  have hrunAt : j.runAt = j₀.runAt := by
    rw [hjeq]
    exact hsame.runAt_eq
  rw [hrunAt]
  -- the job's history begins with that enqueue and goes on, if only with the claim
  obtain ⟨-, a, hfollows, -⟩ := lives_of_run hrun
  have hclaimed : (j.id, .claimed j.owner j.deadline) ∈ history events (t :: h) :=
    mem_history.2 ⟨t, List.mem_cons_self, mem_events_iff.2 ⟨o, j, hop, hclaim, rfl, rfl, rfl⟩⟩
  have henq : (j.id, .enqueued (newLife u.input.now j₀)) ∈ history events (t :: h) := by
    refine mem_history.2 ⟨u, List.mem_cons_of_mem _ hu, ?_⟩
    exact mem_events_iff.2 ⟨newID, o', j₀, hop', hreply, hid, rfl⟩
  obtain ⟨later, hevs, hlater⟩ := Life.first_of_enqueued (hfollows j.id) (mem_eventsAt.2 henq)
  have hclock : ∀ v ∈ t :: h, v.input.now ≤ t.input.now := by
    intro v hv
    rcases List.mem_cons.1 hv with rfl | hv
    · exact le_rfl
    · exact hok.clock v hv
  by_cases hdue : u.input.now < j₀.runAt
  · have hphase : (newLife u.input.now j₀).phase = .scheduled j₀.runAt := if_pos hdue
    have hmem := mem_eventsAt.2 hclaimed
    rw [hevs] at hmem
    rcases later with - | ⟨e, later⟩
    · simp at hmem
    · obtain ⟨now, rfl, hle, -⟩ := Life.promoted_of_delayed (.inl hphase) hlater
      have hpro : (j.id, .promoted now) ∈ history events (t :: h) := by
        rw [← mem_eventsAt, hevs]
        simp
      obtain ⟨v, hv, hmem⟩ := mem_history.1 hpro
      obtain ⟨_, _, -, -, -, rfl⟩ := mem_events_iff.1 hmem
      exact hle.trans (hclock v hv)
  · exact (not_lt.1 hdue).trans (hclock u (List.mem_cons_of_mem _ hu))

/-- A `Nack` that sent the job to retry left it waiting for its `retryAt`. -/
theorem retry_of_sent (hloc : Located t.before) (hsafe : Safe t.before t.input.op)
    (hsent : SentToRetry t id r) :
    ∃ l, (machine.after t).life id = some l ∧ l.phase = .retry r := by
  obtain ⟨⟨w, reason, hop⟩, hreply, hretry⟩ := hsent
  have hreply' : (exec t.before t.input).1 = .done := hreply
  obtain ⟨o, hfold, hshown⟩ := fold_of_exec hloc hsafe id
  have hadv : Life.advance spent (t.before.life id) (.nacked w r) = some o := by
    simpa [events, hop, hreply', eventsAt_cons_self] using hfold
  obtain ⟨l, d, -, -, rfl⟩ := Life.advance_nacked_iff.1 hadv
  have hstate : Life.stateOf ((machine.after t).life id) = .retry :=
    (stateOf_life (steps_exec hloc hsafe).located id).trans hretry
  rcases hshown with hview | ⟨hgone, -⟩
  · refine ⟨_, hview, ?_⟩
    have hphase : (l.fallTo spent (.retry r)).state = .retry := by
      rw [show (machine.after t).life id = _ from hview] at hstate
      exact hstate
    show l.fallTo spent (.retry r) = .retry r
    unfold Life.fallTo at hphase ⊢
    split_ifs at hphase ⊢
    · cases hphase
    · rfl
  · rw [show (machine.after t).life id = none from hgone] at hstate
    cases hstate

/-- **Nothing runs early.** A job that is claimed has waited for its `RunAt`. If its last report
before the claim was a `Nack` that sent it to retry, it has waited for the `retryAt` of that `Nack`,
and in between exactly one `Promote` moved it, not before that time. -/
theorem nothing_early (hrun : machine.Run Admissible (t :: h) b) (hclaim : reply t = .claimed j) :
    j.runAt ≤ t.input.now ∧
      ∀ newer n older r, h = newer ++ n :: older → SentToRetry n j.id r →
        (∀ u ∈ newer, ∀ w, ¬ Settles u w j.id) →
        r ≤ t.input.now ∧ newer.countP (promotes · j.id) = 1 ∧
          ∀ u ∈ newer, promotes u j.id = true → r ≤ u.input.now := by
  refine ⟨runAt_le_of_claimed hrun hclaim, ?_⟩
  rintro newer n older r rfl hsent hquiet
  obtain ⟨hprev, hok, -⟩ := hrun.of_cons
  -- every turn in between finds the jobs in place
  have hturn : ∀ u ∈ newer, Located u.before ∧ Safe u.before u.input.op := by
    intro u hu
    obtain ⟨older', hrun', hok'⟩ := (Admissible.run hprev).of_mem (List.mem_append_left _ hu)
    exact ⟨(lives_of_fresh hrun').1, hok'.safe_of_run hrun'⟩
  obtain ⟨hbefore, hokn⟩ := (Admissible.run hprev).of_append
  obtain ⟨l, hlife, hphase⟩ :=
    retry_of_sent (lives_of_fresh hbefore).1 (hokn.safe_of_run hbefore) hsent
  -- what happens to the job from the `Nack` on
  obtain ⟨-, a₁, hfollows₁, hshown₁⟩ := lives_of_run hprev.upto
  obtain ⟨-, a, hfollows, -⟩ := lives_of_run hrun
  have ha₁ : a₁ j.id = some l := Life.Shown.eq_of_some (hlife ▸ hshown₁ j.id)
  obtain ⟨o, -, -, -, hop, -⟩ := claimed_of_exec (located_of_run hprev) hclaim
  have hevents : eventsAt j.id (events t.before t.input) = [.claimed j.owner j.deadline] := by
    simp [events, hop, show (exec t.before t.input).1 = .claimed j from hclaim, eventsAt_cons_self]
  have hlater : (eventsAt j.id (history events newer) ++ [Event.claimed j.owner j.deadline]).foldlM
      (Life.advance spent) (some l) = some (a j.id) := by
    have hsplit : Follows (Life.advance spent) (fun _ ↦ none) (history events (n :: older) ++
        (history events newer ++ events t.before t.input)) a := by
      simpa [history, history_append] using hfollows
    have hfold := hfollows₁.of_append hsplit j.id
    rwa [ha₁, eventsAt_append, hevents] at hfold
  have hreports : ∀ e ∈ eventsAt j.id (history events newer), e.isSettlement = false := by
    intro e he
    obtain ⟨u, hu, hmem⟩ := mem_history.1 (mem_eventsAt.1 he)
    cases e with
    | acked w | nacked w r | killed w => exact absurd (settles_of_event hmem rfl) (hquiet u hu w)
    | _ => rfl
  rcases hnewer : eventsAt j.id (history events newer) with - | ⟨e, later⟩
  · -- the claim is not the first thing to happen to a job that waits
    rw [hnewer] at hlater
    obtain ⟨now, h, -⟩ := Life.promoted_of_delayed (.inr hphase) hlater
    cases h
  · rw [hnewer] at hlater hreports
    obtain ⟨now, rfl, hle, hlater⟩ := Life.promoted_of_delayed (.inr hphase) hlater
    have hnone := Life.not_promoted_of_ready hlater rfl fun e he ↦ by
      rcases List.mem_append.1 he with he | he
      · exact hreports e (List.mem_cons_of_mem _ he)
      · rw [List.mem_singleton.1 he]
        rfl
    have honly : ∀ u ∈ newer, promotes u j.id = true → u.input.now = now := by
      intro u hu hpro
      obtain ⟨now', hmem⟩ := (promotes_iff (hturn u hu).1 (hturn u hu).2).1 hpro
      have hin := mem_eventsAt.2 (mem_history.2 ⟨u, hu, hmem⟩)
      obtain ⟨_, _, -, -, -, rfl⟩ := mem_events_iff.1 hmem
      rw [hnewer] at hin
      rcases List.mem_cons.1 hin with heq | hin
      · exact Event.promoted.inj heq
      · cases hnone _ (List.mem_append_left _ hin)
    have hzero : later.countP Event.isPromotion = 0 := List.countP_eq_zero.2 fun e he ↦ by
      simp [hnone e (List.mem_append_left _ he)]
    have hcount : newer.countP (promotes · j.id) = 1 := by
      rw [← countP_eventsAt_history fun u hu ↦
        countP_isPromotion_events (hturn u hu).1 (hturn u hu).2, hnewer,
        List.countP_cons_of_pos rfl, hzero]
    refine ⟨?_, hcount, fun u hu hpro ↦ by rw [honly u hu hpro]; exact hle⟩
    obtain ⟨u, hu, hpro⟩ := List.countP_pos_iff.1 (hcount ▸ Nat.one_pos)
    calc r ≤ now := hle
      _ = u.input.now := (honly u hu hpro).symm
      _ ≤ t.input.now := hok.clock u (List.mem_append_left _ hu)

/-- A job is claimed, nacked until 10, not promoted at 9, promoted at 12 and claimed again. -/
theorem nothing_early_retried : ∃ (t n : Turn Broker Call) (newer older : List (Turn Broker Call))
    (b : Broker) (j : Job), machine.Run Admissible (t :: (newer ++ n :: older)) b ∧
      reply t = .claimed j ∧ SentToRetry n j.id 10 ∧
      j.runAt ≤ t.input.now ∧ 10 ≤ t.input.now ∧ newer.countP (promotes · j.id) = 1 := by
  let c₁ : Call := ⟨6, .enqueue "a" (some { Job.plain "q" "t" 3 with runAt := 5 })⟩
  let c₂ : Call := ⟨7, .dequeue ⟨"w", ["q"], 100⟩⟩
  let c₃ : Call := ⟨8, .nack "w" "a" 10 "boom"⟩
  let c₄ : Call := ⟨9, .promote 10⟩
  let c₅ : Call := ⟨12, .promote 10⟩
  let c₆ : Call := ⟨13, .dequeue ⟨"w", ["q"], 100⟩⟩
  let b₁ := machine.next new c₁
  let b₂ := machine.next b₁ c₂
  let b₃ := machine.next b₂ c₃
  let b₄ := machine.next b₃ c₄
  let b₅ := machine.next b₄ c₅
  have hrun : machine.Run Admissible (⟨b₅, c₆⟩ :: ([⟨b₄, c₅⟩, ⟨b₃, c₄⟩] ++
      ⟨b₂, c₃⟩ :: [⟨b₁, c₂⟩, ⟨new, c₁⟩])) (machine.next b₅ c₆) :=
    .step c₆ (.step c₅ (.step c₄ (.step c₃ (.step c₂ (.step c₁ .start
      ⟨by simp, by simp, by simp⟩) ⟨by simp [c₁, c₂], by simp [c₂], by simp [c₂]⟩)
      ⟨by simp [c₁, c₂, c₃], by simp [c₃], by simp [c₃]⟩)
      ⟨by simp [c₁, c₂, c₃, c₄], by simp [c₄], by simp [c₄]⟩)
      ⟨by simp [c₁, c₂, c₃, c₄, c₅], by simp [c₅], by simp [c₅]⟩)
      ⟨by simp [c₁, c₂, c₃, c₄, c₅, c₆], by simp [c₆], by simp [c₆]⟩
  have hclaim : claimOf ⟨b₅, c₆⟩ = some "a" := by decide +kernel
  obtain ⟨j, hj, hid⟩ := claimOf_eq_some.1 hclaim
  have hsent : SentToRetry ⟨b₂, c₃⟩ j.id 10 := by
    rw [hid]
    exact ⟨⟨"w", "boom", rfl⟩, rfl, by decide⟩
  have hquiet : ∀ u ∈ [⟨b₄, c₅⟩, ⟨b₃, c₄⟩], ∀ w, ¬ Settles u w j.id := by
    simp [Settles, c₄, c₅]
  obtain ⟨hready, hretry⟩ := nothing_early hrun hj
  obtain ⟨hwait, hone, -⟩ := hretry _ _ _ _ rfl hsent hquiet
  exact ⟨_, _, _, _, _, j, hrun, hj, hsent, hready, hwait, hone⟩

end TaskQueue.Memory
