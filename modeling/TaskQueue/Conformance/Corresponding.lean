import TaskQueue.Conformance.Lockstep
import TaskQueue.Memory.Batches

/-!
# Corresponding states

Two brokers with the same contents, as far as the sweeps of `Promote` and `Reap` read them. This
asks for less than `Lockstep`: nothing about unique keys, claims or the clock, and of a job no more
than its queue, its state and its attempts. `SameWaits` adds the jobs that are waiting, `SameLeases`
those that are leased and those that are dead. Brokers in lockstep correspond in both ways
(`Lockstep.sameWaits`, `Lockstep.sameLeases`).

What the sets of a broker contain are jobs, each in the state that belongs to the set. That is so in
every state either broker can reach.
-/

namespace TaskQueue

/-- The queue of a stored job. -/
def Redis.Store.queueOf (s : Redis.Store) (id : String) : Option String :=
  (s.job id).map fun e ↦ e.hash.queue

namespace Conformance

open Memory (Broker)
open Redis (Hash Entry Store ZSet timeFromMs)

/-- The same job, as far as the sweeps look at it. -/
structure Alike (j : Job) (h : Hash) : Prop where
  queue : j.queue = h.queue
  state : j.state = h.state
  attempt : j.attempt = h.attempt
  maxAttempts : j.maxAttempts = h.maxAttempts

/-- Two brokers with the same jobs and the same ready lists. -/
structure Corresponding (b : Broker) (s : Store) : Prop where
  opened : b.closed = false
  jobs : ∀ id, Option.Rel (fun j e ↦ Alike j e.hash) (b.jobs.lookup id) (s.job id)
  ready : b.pending = s.ready

/-- And with the same jobs waiting, until the same times. -/
structure SameWaits (b : Broker) (s : Store) : Prop extends Corresponding b s where
  scheduled : Mirrors b.scheduled s.delayed
  retry : Mirrors b.retry s.retry
  scheduled_state : ∀ id t, b.scheduled.lookup id = some t →
    ∃ j, b.jobs.lookup id = some j ∧ j.state = .scheduled
  retry_state : ∀ id t, b.retry.lookup id = some t →
    ∃ j, b.jobs.lookup id = some j ∧ j.state = .retry

/-- The leases on the jobs of one queue. -/
def leasesOf (b : Broker) (q id : String) : Option Time :=
  if b.queueOf id = some q then b.active.lookup id else none

/-- And with the same jobs leased, until the same times, and the same jobs dead. Lua compares
attempt counts as doubles, which hold every number up to `2 ^ 53`. -/
structure SameLeases (b : Broker) (s : Store) : Prop extends Corresponding b s where
  keyed : ∀ id j, b.jobs.lookup id = some j → j.id = id
  active : ∀ q id, leasesOf b q id = ((s.active q).lookup id).map timeFromMs
  active_nonneg : ∀ q id t, (s.active q).lookup id = some t → 0 ≤ t
  active_state : ∀ id t, b.active.lookup id = some t →
    ∃ j, b.jobs.lookup id = some j ∧ j.state = .active
  dead : ∀ id, id ∈ b.dead ↔ (s.dead.lookup id).isSome
  budget : ∀ id j, b.jobs.lookup id = some j → 0 < j.maxAttempts ∧ j.maxAttempts ≤ 2 ^ 53

variable {b : Broker} {s : Store} {n : ℤ} {id : String} {j : Job} {e : Entry}

theorem Corresponding.of_job (C : Corresponding b s) (hj : b.jobs.lookup id = some j) :
    ∃ e, s.job id = some e ∧ Alike j e.hash := by
  have hrel := C.jobs id
  rw [hj] at hrel
  rcases he : s.job id with - | e <;> rw [he] at hrel
  · exact absurd hrel Option.not_rel_some_none
  · rw [Option.rel_some_some] at hrel
    exact ⟨e, rfl, hrel⟩

theorem Corresponding.of_hash (C : Corresponding b s) (he : s.job id = some e) :
    ∃ j, b.jobs.lookup id = some j ∧ Alike j e.hash := by
  have hrel := C.jobs id
  rw [he] at hrel
  rcases hj : b.jobs.lookup id with - | j <;> rw [hj] at hrel
  · exact absurd hrel Option.not_rel_none_some
  · rw [Option.rel_some_some] at hrel
    exact ⟨j, rfl, hrel⟩

/-- Jobs are in the same queues. -/
theorem Corresponding.queueOf_eq (C : Corresponding b s) (id : String) :
    s.queueOf id = b.queueOf id := by
  rcases he : s.job id with - | e
  · rcases hj : b.jobs.lookup id with - | j
    · rw [Redis.Store.queueOf, Broker.queueOf, he, hj]
      rfl
    · obtain ⟨e, he', -⟩ := C.of_job hj
      rw [he] at he'
      cases he'
  · obtain ⟨j, hj, halike⟩ := C.of_hash he
    rw [Redis.Store.queueOf, Broker.queueOf, he, hj]
    exact congrArg some halike.queue.symm

/-- Jobs are in the same states. -/
theorem Corresponding.state_iff (C : Corresponding b s) (st : State) :
    (∃ j, b.jobs.lookup id = some j ∧ j.state = st) ↔
      ∃ e, s.job id = some e ∧ e.hash.state = st := by
  constructor
  · rintro ⟨j, hj, hstate⟩
    obtain ⟨e, he, halike⟩ := C.of_job hj
    exact ⟨e, he, halike.state ▸ hstate⟩
  · rintro ⟨e, he, hstate⟩
    obtain ⟨j, hj, halike⟩ := C.of_hash he
    exact ⟨j, hj, halike.state.trans hstate⟩

/-- A job that is waiting is waiting in one set. -/
theorem SameWaits.not_both (C : SameWaits b s) {t t' : Time} (ht : b.scheduled.lookup id = some t)
    (ht' : b.retry.lookup id = some t') : False := by
  obtain ⟨j, hj, hstate⟩ := C.scheduled_state id t ht
  obtain ⟨j', hj', hstate'⟩ := C.retry_state id t' ht'
  rw [hj] at hj'
  rw [Option.some.inj hj', hstate'] at hstate
  cases hstate

/-! ### Brokers in lockstep correspond -/

theorem Lockstep.corresponding (L : Lockstep n b s) : Corresponding b s where
  opened := L.opened
  jobs id := by
    have hrel := L.jobs id
    rcases hj : b.jobs.lookup id with - | j <;> rcases he : s.job id with - | e <;>
      rw [hj, he] at hrel
    · exact .none
    · exact absurd hrel Option.not_rel_none_some
    · exact absurd hrel Option.not_rel_some_none
    · have hsame := Option.rel_some_some.1 hrel
      exact .some ⟨hsame.queue, hsame.state, hsame.attempt, hsame.maxAttempts⟩
  ready := L.ready

/-- The state of a job in a wait set. -/
theorem Lockstep.waiting_state (L : Lockstep n b s) (set : Redis.Script.WaitSet) {t : Time}
    (ht : (b.waitSet (waitSet set)).lookup id = some t) :
    ∃ j, b.jobs.lookup id = some j ∧ j.state = Redis.waitState set := by
  obtain ⟨hmirror, -⟩ := L.wait set id
  rw [ht] at hmirror
  obtain ⟨t₀, ht₀, -⟩ := Option.map_eq_some_iff.1 hmirror.symm
  exact (L.corresponding.state_iff _).2 (L.redis.of_waitSet ht₀)

theorem Lockstep.sameWaits (L : Lockstep n b s) : SameWaits b s where
  toCorresponding := L.corresponding
  scheduled := L.scheduled
  retry := L.retry
  scheduled_state _ _ ht := L.waiting_state .delayed ht
  retry_state _ _ ht := L.waiting_state .retry ht

/-- The active set of a queue has the leases on its jobs. -/
theorem Lockstep.leases (L : Lockstep n b s) (q id : String) :
    leasesOf b q id = ((s.active q).lookup id).map timeFromMs := by
  rcases ht : (s.active q).lookup id with - | t
  · rw [leasesOf]
    split_ifs with hq
    · rcases hlease : b.active.lookup id with - | d
      · rfl
      · obtain ⟨j, hj, hact, -⟩ := L.memory.of_lease hlease
        obtain ⟨e, he, hsame⟩ := L.of_job hj
        have hin := L.redis.leased id e he (hsame.state ▸ hact)
        rw [Broker.queueOf, hj] at hq
        rw [← hsame.queue, Option.some.inj hq, ht] at hin
        cases hin
    · rfl
  · obtain ⟨e, he, hact, rfl, rfl⟩ := L.redis.of_lease ht
    obtain ⟨j, hj, hsame⟩ := L.of_hash he
    have hq : b.queueOf id = some e.hash.queue := by
      rw [Broker.queueOf, hj]
      exact congrArg some hsame.queue
    rw [leasesOf, if_pos hq, L.memory.leased id j hj (hsame.state.trans hact), hsame.deadline]
    rfl

theorem Lockstep.sameLeases (L : Lockstep n b s) : SameLeases b s where
  toCorresponding := L.corresponding
  keyed := L.memory.keyed
  active := L.leases
  active_nonneg q id t ht := by
    obtain ⟨e, he, -, -, rfl⟩ := L.redis.of_lease ht
    obtain ⟨j, -, hsame⟩ := L.of_hash he
    exact hsame.deadline_nonneg
  active_state id t ht := by
    obtain ⟨j, hj, hact, -⟩ := L.memory.of_lease ht
    exact ⟨j, hj, hact⟩
  dead id := by
    have hmemory : id ∈ b.dead ↔ ∃ j, b.jobs.lookup id = some j ∧ j.state = .dead := by
      have hcount := (L.memory.counts id).2.2.2.2
      rw [← List.count_pos_iff, hcount, Broker.home]
      refine Iff.trans ⟨fun hpos ↦ ?_, fun hhome ↦ by rw [if_pos hhome]; exact zero_lt_one⟩
        (Option.bind_eq_some_iff.trans (exists_congr fun j ↦ and_congr_right fun _ ↦
          Memory.place_eq_some_iff (p := .dead)))
      by_contra hhome
      rw [if_neg hhome] at hpos
      exact lt_irrefl 0 hpos
    have hredis : (s.dead.lookup id).isSome ↔ ∃ e, s.job id = some e ∧ e.hash.state = .dead := by
      rw [(L.redis.counts id).2.2.2, Redis.Store.home, Option.bind_eq_some_iff]
      exact exists_congr fun e ↦ and_congr_right fun _ ↦ Redis.placeOf_eq_some_iff
    rw [hmemory, hredis]
    exact L.corresponding.state_iff .dead
  budget id j hj := by
    obtain ⟨e, -, hsame⟩ := L.of_job hj
    rw [hsame.maxAttempts]
    exact ⟨hsame.budget_pos, hsame.budget_lt.le⟩

end Conformance

end TaskQueue
