import TaskQueue.Data.Placement
import TaskQueue.Memory.Machine
import TaskQueue.Observation

/-!
# What one job can go through in the in-memory broker

Every operation of the broker is a sequence of moves of single jobs. This module says once, for each
move, everything later proofs need:

* its **frame** (`Frame`): what the broker holds about every other job is unchanged;
* that it keeps the **location invariant** (`Located`): a job is in exactly one container, the one
  its state names, it has an owner exactly while it is leased, and the active set carries its
  deadline;
* the **event** of the lifecycle automaton it performs, from the life the broker shows for the job
  before it to the life it shows after.

The three together are `Moves`. None of the operations checks a job's state before moving it out of
a container it found it in, so the event is accepted only because of the invariant; this is where
that argument is made, once for each move.
-/

namespace TaskQueue.Memory

open Placement

/-- The containers of the in-memory broker. -/
inductive Place
  | pending (queue : String)
  | active
  | scheduled
  | retry
  | dead
  deriving DecidableEq

/-- The container a job's state names. -/
def place (j : Job) : Option Place :=
  match j.state with
  | .pending => some (.pending j.queue)
  | .active => some .active
  | .scheduled => some .scheduled
  | .retry => some .retry
  | .dead => some .dead
  | .none | .completed => none

theorem place_eq_some_iff {j : Job} {p : Place} : place j = some p ↔
    match p with
    | .pending q => j.state = .pending ∧ j.queue = q
    | .active => j.state = .active
    | .scheduled => j.state = .scheduled
    | .retry => j.state = .retry
    | .dead => j.state = .dead := by
  cases hstate : j.state <;> cases p <;> simp [place, hstate]

namespace Broker

/-- How often a container mentions an ID. -/
def mentions (b : Broker) : Place → String → ℕ
  | .pending q, id => (b.pending q).count id
  | .active, id => if (b.active.lookup id).isSome then 1 else 0
  | .scheduled, id => if (b.scheduled.lookup id).isSome then 1 else 0
  | .retry, id => if (b.retry.lookup id).isSome then 1 else 0
  | .dead, id => b.dead.count id

/-- The container the stored job `id` belongs in. -/
def home (b : Broker) (id : String) : Option Place := (b.jobs.lookup id).bind place

/-- The location invariant. -/
structure Located (b : Broker) : Prop where
  keyed : ∀ id j, b.jobs.lookup id = some j → j.id = id
  housed : ∀ id j, b.jobs.lookup id = some j → (place j).isSome
  exact : Placement.Exact b.home b.mentions
  owned : ∀ id j, b.jobs.lookup id = some j → (j.owner ≠ "" ↔ j.state = .active)
  leased : ∀ id j, b.jobs.lookup id = some j → j.state = .active →
    b.active.lookup id = some j.deadline

/-- The phase a stored job is in. -/
def phase (b : Broker) (id : String) (j : Job) : Phase :=
  match j.state with
  | .pending => .pending
  | .active => .active j.owner j.deadline
  | .scheduled => .scheduled ((b.scheduled.lookup id).getD 0)
  | .retry => .retry ((b.retry.lookup id).getD 0)
  | .dead => .dead
  | .none | .completed => .done

/-- The life the broker shows for an ID. -/
def life (b : Broker) (id : String) : Option Life :=
  (b.jobs.lookup id).map fun j ↦
    { queue := j.queue
      maxAttempts := j.maxAttempts
      attempt := j.attempt
      recoveries := j.recoveries
      phase := b.phase id j }

/-! ### Frames -/

/-- What the broker holds about every job but `id` is unchanged. -/
structure Frame (b b' : Broker) (id : String) : Prop where
  jobs : ∀ x, x ≠ id → b'.jobs.lookup x = b.jobs.lookup x
  active : ∀ x, x ≠ id → b'.active.lookup x = b.active.lookup x
  scheduled : ∀ x, x ≠ id → b'.scheduled.lookup x = b.scheduled.lookup x
  retry : ∀ x, x ≠ id → b'.retry.lookup x = b.retry.lookup x
  pending : ∀ q x, x ≠ id → (b'.pending q).count x = (b.pending q).count x
  dead : ∀ x, x ≠ id → b'.dead.count x = b.dead.count x

variable {b b' b'' : Broker} {now : Time} {id q w : String} {j : Job}

theorem Frame.home (f : Frame b b' id) {x : String} (hx : x ≠ id) : b'.home x = b.home x := by
  rw [Broker.home, Broker.home, f.jobs x hx]

theorem Frame.mentions (f : Frame b b' id) (p : Place) {x : String} (hx : x ≠ id) :
    b'.mentions p x = b.mentions p x := by
  cases p with
  | pending q => exact f.pending q x hx
  | active => simp only [Broker.mentions, f.active x hx]
  | scheduled => simp only [Broker.mentions, f.scheduled x hx]
  | retry => simp only [Broker.mentions, f.retry x hx]
  | dead => exact f.dead x hx

theorem Frame.life (f : Frame b b' id) {x : String} (hx : x ≠ id) : b'.life x = b.life x := by
  simp only [Broker.life, Broker.phase, f.jobs x hx, f.scheduled x hx, f.retry x hx]

/-- **One job moves.** After a step about `id` the invariant is left to check for `id` alone. -/
theorem Located.of_frame (h : Located b) (f : Frame b b' id)
    (hjob : ∀ j, b'.jobs.lookup id = some j → j.id = id ∧ (place j).isSome ∧
      (j.owner ≠ "" ↔ j.state = .active) ∧
      (j.state = .active → b'.active.lookup id = some j.deadline))
    (hcount : ∀ p, b'.mentions p id = if b'.home id = some p then 1 else 0) : Located b' := by
  have hold : ∀ x j, x ≠ id → b'.jobs.lookup x = some j → b.jobs.lookup x = some j :=
    fun x j hx hj ↦ (f.jobs x hx).symm.trans hj
  refine ⟨fun x j hj ↦ ?_, fun x j hj ↦ ?_, ?_, fun x j hj ↦ ?_, fun x j hj hact ↦ ?_⟩
  · by_cases hx : x = id
    · subst hx
      exact (hjob j hj).1
    · exact h.keyed x j (hold x j hx hj)
  · by_cases hx : x = id
    · subst hx
      exact (hjob j hj).2.1
    · exact h.housed x j (hold x j hx hj)
  · exact h.exact.of_touch id (fun x hx ↦ f.home hx) (fun p x hx ↦ f.mentions p hx) hcount
  · by_cases hx : x = id
    · subst hx
      exact (hjob j hj).2.2.1
    · exact h.owned x j (hold x j hx hj)
  · by_cases hx : x = id
    · subst hx
      exact (hjob j hj).2.2.2 hact
    · rw [f.active x hx]
      exact h.leased x j (hold x j hx hj) hact

/-- What the invariant says about one ID, container by container. -/
theorem Located.counts (h : Located b) (id : String) :
    (∀ q, (b.pending q).count id = if b.home id = some (.pending q) then 1 else 0) ∧
    ((b.active.lookup id).isSome ↔ b.home id = some .active) ∧
    ((b.scheduled.lookup id).isSome ↔ b.home id = some .scheduled) ∧
    ((b.retry.lookup id).isSome ↔ b.home id = some .retry) ∧
    b.dead.count id = if b.home id = some .dead then 1 else 0 := by
  have hset : ∀ {p : Place} {o : Option Time},
      (if o.isSome then 1 else 0) = (if b.home id = some p then 1 else 0) →
      (o.isSome ↔ b.home id = some p) := by
    intro p o hpo
    by_cases ho : o.isSome <;> by_cases hp : b.home id = some p <;> simp_all
  exact ⟨fun q ↦ h.exact id (.pending q), hset (h.exact id .active), hset (h.exact id .scheduled),
    hset (h.exact id .retry), h.exact id .dead⟩

/-- The ID of no stored job is nowhere. -/
theorem Located.absent (h : Located b) (hid : b.jobs.lookup id = none) :
    (∀ q, (b.pending q).count id = 0) ∧ b.active.lookup id = none ∧
      b.scheduled.lookup id = none ∧ b.retry.lookup id = none ∧ b.dead.count id = 0 := by
  have hc := h.counts id
  simpa [home, hid] using hc

/-- A stored job is where its state says, and nowhere else. -/
theorem Located.present (h : Located b) (hj : b.jobs.lookup id = some j) {p : Place}
    (hp : place j = some p) :
    (∀ q, (b.pending q).count id = if p = .pending q then 1 else 0) ∧
    ((b.active.lookup id).isSome ↔ p = .active) ∧
    ((b.scheduled.lookup id).isSome ↔ p = .scheduled) ∧
    ((b.retry.lookup id).isSome ↔ p = .retry) ∧
    b.dead.count id = if p = .dead then 1 else 0 := by
  have hc := h.counts id
  simpa [home, hj, hp] using hc

/-- An active job is leased until its deadline and is nowhere else. -/
theorem Located.of_active (h : Located b) (hj : b.jobs.lookup id = some j)
    (hact : j.state = .active) :
    (∀ q, (b.pending q).count id = 0) ∧ b.active.lookup id = some j.deadline ∧
      b.scheduled.lookup id = none ∧ b.retry.lookup id = none ∧ b.dead.count id = 0 := by
  have hc := h.present hj (p := .active) (by simp [place, hact])
  simpa [h.leased id j hj hact] using hc

/-- The ID at the head of a ready list is a pending job of that queue. -/
theorem Located.of_head (h : Located b) {rest : List String} (hq : b.pending q = id :: rest) :
    ∃ j, b.jobs.lookup id = some j ∧ j.state = .pending ∧ j.queue = q := by
  have hhome : b.home id = some (.pending q) :=
    h.exact.home_eq (p := .pending q) (by simp [mentions, hq])
  obtain ⟨j, hj, hplace⟩ := Option.bind_eq_some_iff.1 hhome
  exact ⟨j, hj, place_eq_some_iff.1 hplace⟩

/-- A pending job is in the ready list of its queue and nowhere else. -/
theorem Located.of_pending (h : Located b) (hj : b.jobs.lookup id = some j)
    (hpend : j.state = .pending) :
    (∀ q, (b.pending q).count id = if j.queue = q then 1 else 0) ∧ b.active.lookup id = none ∧
      b.scheduled.lookup id = none ∧ b.retry.lookup id = none ∧ b.dead.count id = 0 := by
  have hc := h.present hj (p := .pending j.queue) (by simp [place, hpend])
  simpa using hc

/-- A stored job that is not leased has no owner. -/
theorem Located.owner_eq (h : Located b) (hj : b.jobs.lookup id = some j)
    (hstate : j.state ≠ .active) : j.owner = "" := by
  by_contra hne
  exact hstate ((h.owned id j hj).1 hne)

/-- A job in the scheduled set is scheduled and is nowhere else. -/
theorem Located.of_scheduled (h : Located b) (hj : b.jobs.lookup id = some j)
    (hin : (b.scheduled.lookup id).isSome) :
    j.state = .scheduled ∧ (∀ q, (b.pending q).count id = 0) ∧ b.active.lookup id = none ∧
      b.retry.lookup id = none ∧ b.dead.count id = 0 := by
  have hplace : place j = some .scheduled := by
    simpa [home, hj] using (h.counts id).2.2.1.1 hin
  have hc := h.present hj hplace
  simpa [place_eq_some_iff.1 hplace, hin] using hc

/-- A job in the retry set is being retried and is nowhere else. -/
theorem Located.of_retry (h : Located b) (hj : b.jobs.lookup id = some j)
    (hin : (b.retry.lookup id).isSome) :
    j.state = .retry ∧ (∀ q, (b.pending q).count id = 0) ∧ b.active.lookup id = none ∧
      b.scheduled.lookup id = none ∧ b.dead.count id = 0 := by
  have hplace : place j = some .retry := by
    simpa [home, hj] using (h.counts id).2.2.2.1.1 hin
  have hc := h.present hj hplace
  simpa [place_eq_some_iff.1 hplace, hin] using hc

/-- A job in the dead-letter list is dead and is nowhere else. -/
theorem Located.of_dead (h : Located b) (hj : b.jobs.lookup id = some j) (hin : id ∈ b.dead) :
    j.state = .dead ∧ (∀ q, (b.pending q).count id = 0) ∧ b.active.lookup id = none ∧
      b.scheduled.lookup id = none ∧ b.retry.lookup id = none ∧ b.dead.count id = 1 := by
  have hplace : place j = some .dead := by
    have hhome := h.exact.home_eq (a := id) (p := .dead) (List.count_pos_iff.2 hin).ne'
    simpa [home, hj] using hhome
  have hc := h.present hj hplace
  simpa [place_eq_some_iff.1 hplace] using hc

/-! ### Moves -/

/-- The in-memory test for a spent budget, on the counters alone. -/
def spent (attempt maxAttempts : ℤ) : Bool := decide (maxAttempts ≤ attempt)

/-- Job `id` moves by event `e`, and the rest of the broker's jobs stay as they are. -/
structure Moves (b : Broker) (id : String) (e : Event) (b' : Broker) : Prop where
  frame : Frame b b' id
  located : Located b'
  life : ∃ o, Life.advance spent (b.life id) e = some o ∧ Life.Shown o (b'.life id)

theorem life_eq_some (hj : b.jobs.lookup id = some j) :
    b.life id = some ⟨j.queue, j.maxAttempts, j.attempt, j.recoveries, b.phase id j⟩ := by
  rw [life, hj]
  rfl

theorem life_eq_none (hj : b.jobs.lookup id = none) : b.life id = none := by
  rw [life, hj]
  rfl

/-- A new job is stored. -/
theorem moves_store (h : Located b) (hid : b.jobs.lookup j.id = none) :
    Moves b j.id (.enqueued (newLife now j)) (b.store now j) := by
  obtain ⟨hp, ha, hs, hr, hd⟩ := h.absent hid
  by_cases hl : now < j.runAt
  · have f : Frame b (b.store now j) j.id := by
      simp only [store, if_pos hl]
      exact ⟨fun x hx ↦ by simp [hx], fun _ _ ↦ rfl, fun x hx ↦ by simp [hx], fun _ _ ↦ rfl,
        fun _ _ _ ↦ rfl, fun _ _ ↦ rfl⟩
    refine ⟨f, h.of_frame f ?_ fun p ↦ ?_, ?_⟩
    · simp only [store, if_pos hl, AList.lookup_insert]
      rintro _ ⟨⟩
      simp [place]
    · simp only [store, if_pos hl]
      cases p <;> simp [mentions, home, place, *]
    · simp [life, phase, store, hl, hid, newLife, Life.advance, Life.IsNew, Life.Shown]
  · have f : Frame b (b.store now j) j.id := by
      simp only [store, if_neg hl]
      exact ⟨fun x hx ↦ by simp [hx], fun _ _ ↦ rfl, fun _ _ ↦ rfl, fun _ _ ↦ rfl,
        fun q x hx ↦ by simp +contextual [count_update, Ne.symm hx], fun _ _ ↦ rfl⟩
    refine ⟨f, h.of_frame f ?_ fun p ↦ ?_, ?_⟩
    · simp only [store, if_neg hl, AList.lookup_insert]
      rintro _ ⟨⟩
      simp [place]
    · simp only [store, if_neg hl]
      cases p <;> simp [mentions, home, place, count_update, *]
    · simp [life, phase, store, hl, hid, newLife, Life.advance, Life.IsNew, Life.Shown]

/-- The head of a ready list is claimed. -/
theorem moves_claim (h : Located b) {rest : List String} {vt : Duration}
    (hq : b.pending q = id :: rest) (hj : b.jobs.lookup id = some j) (hw : w ≠ "") :
    Moves b id (.claimed w (now + vt)) ((b.pop q).claim now id j w vt) := by
  obtain ⟨j', hj', hpend, hqueue⟩ := h.of_head hq
  obtain rfl : j = j' := Option.some.inj (hj.symm.trans hj')
  obtain ⟨hp, ha, hs, hr, hd⟩ := h.of_pending hj hpend
  have hrest : rest.count id = 0 := by simpa [hq, hqueue] using hp q
  have f : Frame b ((b.pop q).claim now id j w vt) id := by
    refine ⟨fun x hx ↦ by simp [claim, pop, hx], fun x hx ↦ by simp [claim, pop, hx],
      fun _ _ ↦ rfl, fun _ _ ↦ rfl, fun q' x hx ↦ ?_, fun _ _ ↦ rfl⟩
    rw [claim, pop, count_update]
    split
    · next hqq => simp [← hqq, hq, Ne.symm hx]
    · rfl
  refine ⟨f, h.of_frame f ?_ fun p ↦ ?_, ?_⟩
  · simp only [claim, AList.lookup_insert]
    rintro _ ⟨⟩
    simp [claimedJob, place, h.keyed id j hj, hw]
  · cases p with
    | pending q' =>
      by_cases hqq : q = q'
      · subst hqq
        simp [mentions, home, place, claim, claimedJob, pop, hq, hrest]
      · simp [mentions, home, place, claim, claimedJob, pop, count_update, hp, hqueue, hqq]
    | _ => simp [mentions, home, place, claim, claimedJob, pop, *]
  · simp [life, phase, claim, claimedJob, hj, hpend, Life.advance, Life.Shown]

/-- A claim is settled and the job deleted. -/
theorem moves_ack (h : Located b) (hj : b.jobs.lookup id = some j) (hact : j.state = .active)
    (n : ℤ) :
    Moves b id (.acked j.owner)
      { b with active := b.active.erase id, jobs := b.jobs.erase id, processed := n } := by
  obtain ⟨hp, ha, hs, hr, hd⟩ := h.of_active hj hact
  have f : Frame b { b with
      active := b.active.erase id, jobs := b.jobs.erase id, processed := n } id :=
    ⟨fun x hx ↦ AList.lookup_erase_ne hx, fun x hx ↦ AList.lookup_erase_ne hx, fun _ _ ↦ rfl,
      fun _ _ ↦ rfl, fun _ _ _ ↦ rfl, fun _ _ ↦ rfl⟩
  refine ⟨f, h.of_frame f ?_ fun p ↦ ?_, ?_⟩
  · simp
  · cases p <;> simp [mentions, home, *]
  · simp [life, phase, hj, hact, Life.advance, Life.Shown]

/-- A lease ends and the job is dead-lettered. The three ways there differ only in the event and in
what they leave in the envelope. -/
theorem moves_dead (h : Located b) (hj : b.jobs.lookup id = some j) (hact : j.state = .active)
    {e : Event} {j' : Job} (hid : j'.id = id)
    (he : Life.advance spent (b.life id) e =
      some (some ⟨j'.queue, j'.maxAttempts, j'.attempt, j'.recoveries, .dead⟩)) :
    Moves b id e ((b.dropLease id).moveToDeadLocked id j') := by
  obtain ⟨hp, ha, hs, hr, hd⟩ := h.of_active hj hact
  have f : Frame b ((b.dropLease id).moveToDeadLocked id j') id := by
    refine ⟨fun x hx ↦ AList.lookup_insert_ne hx, fun x hx ↦ AList.lookup_erase_ne hx,
      fun _ _ ↦ rfl, fun _ _ ↦ rfl, fun _ _ _ ↦ rfl, fun x hx ↦ ?_⟩
    simp [moveToDeadLocked, dropLease, hid, Ne.symm hx]
  refine ⟨f, h.of_frame f ?_ fun p ↦ ?_, _, he, .inl ?_⟩
  · simp only [moveToDeadLocked, AList.lookup_insert]
    rintro _ ⟨⟩
    simp [place, hid]
  · cases p <;> simp [mentions, home, place, moveToDeadLocked, dropLease, *]
  · simp [life, phase, moveToDeadLocked]

/-- A failed attempt is parked in the retry set. -/
theorem moves_retry (h : Located b) (hj : b.jobs.lookup id = some j) (hact : j.state = .active)
    (hleft : j.exhausted = false) (retryAt : Time) (reason : String) :
    Moves b id (.nacked j.owner retryAt)
      { b.dropLease id with
        jobs := b.jobs.insert id { j with owner := "", lastErr := reason, state := .retry }
        retry := b.retry.insert id retryAt } := by
  obtain ⟨hp, ha, hs, hr, hd⟩ := h.of_active hj hact
  have f : Frame b { b.dropLease id with
      jobs := b.jobs.insert id { j with owner := "", lastErr := reason, state := .retry }
      retry := b.retry.insert id retryAt } id :=
    ⟨fun x hx ↦ AList.lookup_insert_ne hx, fun x hx ↦ AList.lookup_erase_ne hx, fun _ _ ↦ rfl,
      fun x hx ↦ AList.lookup_insert_ne hx, fun _ _ _ ↦ rfl, fun _ _ ↦ rfl⟩
  refine ⟨f, h.of_frame f ?_ fun p ↦ ?_, ?_⟩
  · simp only [AList.lookup_insert]
    rintro _ ⟨⟩
    simp [place, h.keyed id j hj]
  · cases p <;> simp [mentions, home, place, dropLease, *]
  · have hspent : spent j.attempt j.maxAttempts = false := hleft
    simp [life, phase, hj, hact, Life.advance, Life.Shown, Life.fallTo, hspent]

/-- A lease is renewed. -/
theorem moves_renew (h : Located b) (hj : b.jobs.lookup id = some j) (hact : j.state = .active)
    (deadline : Time) :
    Moves b id (.extended j.owner deadline) (b.renew id j deadline) := by
  obtain ⟨hp, ha, hs, hr, hd⟩ := h.of_active hj hact
  have f : Frame b (b.renew id j deadline) id :=
    ⟨fun x hx ↦ AList.lookup_insert_ne hx, fun x hx ↦ AList.lookup_insert_ne hx, fun _ _ ↦ rfl,
      fun _ _ ↦ rfl, fun _ _ _ ↦ rfl, fun _ _ ↦ rfl⟩
  refine ⟨f, h.of_frame f ?_ fun p ↦ ?_, ?_⟩
  · simp only [renew, AList.lookup_insert]
    rintro _ ⟨⟩
    simp [place, h.keyed id j hj, hact, (h.owned id j hj).2 hact]
  · cases p <;> simp [mentions, home, place, renew, *]
  · simp [life, phase, renew, hj, hact, Life.advance, Life.Shown]

/-- An expired lease is ended. -/
theorem moves_recover (h : Located b) (hj : b.jobs.lookup id = some j) (hact : j.state = .active)
    (hexp : j.deadline ≤ now) : Moves b id (.reaped now) (b.recover id j) := by
  by_cases hex : j.exhausted = true
  · have hspent : spent j.attempt j.maxAttempts = true := hex
    rw [recover, if_pos (by exact hex)]
    refine moves_dead h hj hact (h.keyed id j hj) ?_
    simp [life_eq_some hj, phase, hact, Life.advance, Life.fallTo, hexp, hspent]
  · obtain ⟨hp, ha, hs, hr, hd⟩ := h.of_active hj hact
    have hspent : spent j.attempt j.maxAttempts = false := eq_false_of_ne_true hex
    rw [recover, if_neg (by exact hex)]
    refine ⟨?f, h.of_frame ?f ?_ fun p ↦ ?_, ?_⟩
    case f =>
      exact ⟨fun x hx ↦ AList.lookup_insert_ne hx, fun x hx ↦ AList.lookup_erase_ne hx,
        fun _ _ ↦ rfl, fun _ _ ↦ rfl,
        fun q x hx ↦ by simp +contextual [dropLease, count_update, Ne.symm hx], fun _ _ ↦ rfl⟩
    · simp only [AList.lookup_insert]
      rintro _ ⟨⟩
      simp [place, h.keyed id j hj]
    · cases p <;> simp [mentions, home, place, dropLease, count_update, *]
    · simp [life, phase, hj, hact, Life.advance, Life.Shown, Life.fallTo, hexp, hspent]

/-- The table behind one of the two sets `Promote` drains. -/
def waitSet (b : Broker) : WaitSet → Table String Time
  | .scheduled => b.scheduled
  | .retry => b.retry

@[simp] theorem promoteJob_jobs (set : WaitSet) :
    (b.promoteJob set id j).jobs = b.jobs.insert id { j with state := .pending } := by
  cases set <;> rfl

@[simp] theorem promoteJob_pending (set : WaitSet) : (b.promoteJob set id j).pending =
    Function.update b.pending j.queue (b.pending j.queue ++ [id]) := by
  cases set <;> rfl

/-- A due job is promoted. -/
theorem moves_promote (h : Located b) (hj : b.jobs.lookup id = some j) {set : WaitSet} {t : Time}
    (hin : (b.waitSet set).lookup id = some t) (ht : t ≤ now) :
    Moves b id (.promoted now) (b.promoteJob set id j) := by
  cases set with
  | scheduled =>
    have hin : b.scheduled.lookup id = some t := hin
    obtain ⟨hstate, hp, ha, hr, hd⟩ := h.of_scheduled hj (by rw [hin]; rfl)
    refine ⟨?f, h.of_frame ?f ?_ fun p ↦ ?_, ?_⟩
    case f =>
      exact ⟨fun x hx ↦ AList.lookup_insert_ne hx, fun _ _ ↦ rfl,
        fun x hx ↦ AList.lookup_erase_ne hx, fun _ _ ↦ rfl,
        fun q x hx ↦ by simp +contextual [promoteJob, leaveSet, count_update, Ne.symm hx],
        fun _ _ ↦ rfl⟩
    · simp only [promoteJob, AList.lookup_insert]
      rintro _ ⟨⟩
      simp [place, h.keyed id j hj, h.owner_eq hj, hstate]
    · cases p <;> simp [mentions, home, place, promoteJob, leaveSet, count_update, *]
    · simp [life, phase, promoteJob, hj, hstate, hin, ht, Life.advance, Life.Shown]
  | retry =>
    have hin : b.retry.lookup id = some t := hin
    obtain ⟨hstate, hp, ha, hs, hd⟩ := h.of_retry hj (by rw [hin]; rfl)
    refine ⟨?f, h.of_frame ?f ?_ fun p ↦ ?_, ?_⟩
    case f =>
      exact ⟨fun x hx ↦ AList.lookup_insert_ne hx, fun _ _ ↦ rfl, fun _ _ ↦ rfl,
        fun x hx ↦ AList.lookup_erase_ne hx,
        fun q x hx ↦ by simp +contextual [promoteJob, leaveSet, count_update, Ne.symm hx],
        fun _ _ ↦ rfl⟩
    · simp only [promoteJob, AList.lookup_insert]
      rintro _ ⟨⟩
      simp [place, h.keyed id j hj, h.owner_eq hj, hstate]
    · cases p <;> simp [mentions, home, place, promoteJob, leaveSet, count_update, *]
    · simp [life, phase, promoteJob, hj, hstate, hin, ht, Life.advance, Life.Shown]

/-- A dead job is replayed. -/
theorem moves_replay (h : Located b) (hj : b.jobs.lookup id = some j) (hdead : id ∈ b.dead) :
    Moves b id .replayed (b.replay id j) := by
  obtain ⟨hstate, hp, ha, hs, hr, hd⟩ := h.of_dead hj hdead
  refine ⟨?f, h.of_frame ?f ?_ fun p ↦ ?_, ?_⟩
  case f =>
    exact ⟨fun x hx ↦ AList.lookup_insert_ne hx, fun _ _ ↦ rfl, fun _ _ ↦ rfl, fun _ _ ↦ rfl,
      fun q x hx ↦ by
        simp +contextual [replay, removeDeadLocked, count_update, Ne.symm hx],
      fun x hx ↦ List.count_erase_of_ne hx⟩
  · simp only [replay, removeDeadLocked, AList.lookup_insert]
    rintro _ ⟨⟩
    simp [place, h.keyed id j hj]
  · cases p <;> simp [mentions, home, place, replay, removeDeadLocked, count_update, *]
  · simp [life, phase, replay, removeDeadLocked, hj, hstate, Life.advance, Life.Shown]

/-- A dead job is purged. -/
theorem moves_purge (h : Located b) (hj : b.jobs.lookup id = some j) (hdead : id ∈ b.dead) :
    Moves b id .purged (b.purge id) := by
  obtain ⟨hstate, hp, ha, hs, hr, hd⟩ := h.of_dead hj hdead
  refine ⟨?f, h.of_frame ?f ?_ fun p ↦ ?_, ?_⟩
  case f =>
    exact ⟨fun x hx ↦ AList.lookup_erase_ne hx, fun _ _ ↦ rfl, fun _ _ ↦ rfl, fun _ _ ↦ rfl,
      fun _ _ _ ↦ rfl, fun x hx ↦ List.count_erase_of_ne hx⟩
  · simp [purge, removeDeadLocked]
  · cases p <;> simp [mentions, home, purge, removeDeadLocked, *]
  · simp [life, phase, purge, removeDeadLocked, hj, hstate, Life.advance, Life.Shown]

end Broker

end TaskQueue.Memory
