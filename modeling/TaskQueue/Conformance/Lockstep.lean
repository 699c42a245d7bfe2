import TaskQueue.Memory.Location
import TaskQueue.Redis.Attempts

/-!
# The two brokers in lockstep

The in-memory broker is meant as the reference for the Redis broker. Between the two there is one
mutex and a handful of Go maps on the one side, and scripts over lists, hashes and a sorted set per
queue on the other. `Lockstep` is the relation that holds between them while both are given the same
operations:

* the **envelope** of every job agrees with its hash, field by field (`Same`), times being whole
  milliseconds on both sides. Redis drops the unique window, and the text on a job that died with
  its worker is not compared: Lua writes a large attempt count in scientific notation;
* the **ready lists** are equal, and the **wait sets** carry the same times;
* a **unique key** is held by the same job from now on. It need not be there on both sides: the
  in-memory broker never deletes one, and Redis does when it expires.

The active sets need no clause. In either broker the location invariant ties them to the deadlines
of the active jobs, and those agree.

The module shows, move by move, that the relation is kept: a move of a job in one broker and the
move of the same job in the other.
-/

namespace TaskQueue.Conformance

open Memory (Broker)
open Redis (Hash Entry Store ZSet timeFromMs msFromTime milliseconds spent)
open Redis.Store

/-! ### Times -/

/-- A duration is a whole number of milliseconds. -/
def Whole (d : Duration) : Prop := millisecond ∣ d

/-- A time is zero, or a whole number of milliseconds after the Unix epoch. -/
def Instant (t : Time) : Prop := t = zeroTime ∨ 0 < t ∧ millisecond ∣ t

theorem timeFromMs_of_pos {n : ℤ} (hn : 0 < n) : timeFromMs n = n * millisecond :=
  if_neg hn.ne'

/-- From the epoch on, milliseconds and times are in the same order; 0 is the zero time. -/
theorem strictMonoOn_timeFromMs : StrictMonoOn timeFromMs (Set.Ici 0) := by
  intro m hm n hn hlt
  have hn : 0 < n := lt_of_le_of_lt hm hlt
  rw [timeFromMs_of_pos hn]
  rcases (show 0 ≤ m from hm).eq_or_lt with rfl | hm
  · exact lt_of_lt_of_le (show zeroTime < 0 by decide) (mul_nonneg hn.le (by decide))
  · rw [timeFromMs_of_pos hm]
    exact mul_lt_mul_of_pos_right hlt (by decide)

/-- A whole number of milliseconds has passed when it has passed on a clock of milliseconds. -/
theorem timeFromMs_le_iff_ediv {now : Time} {t : ℤ} (hnow : 0 ≤ now) (ht : 0 ≤ t) :
    timeFromMs t ≤ now ↔ t ≤ now / millisecond := by
  rcases ht.eq_or_lt with rfl | hpos
  · exact iff_of_true ((show zeroTime ≤ 0 by decide).trans hnow)
      (Int.ediv_nonneg hnow (by decide))
  · rw [timeFromMs_of_pos hpos]
    exact (Int.le_ediv_iff_mul_le (by decide)).symm

theorem timeFromMs_le_iff {n t : ℤ} (hn : 0 < n) (ht : 0 ≤ t) :
    timeFromMs t ≤ n * millisecond ↔ t ≤ n := by
  rw [timeFromMs_le_iff_ediv (mul_nonneg hn.le (by decide)) ht, Int.mul_ediv_cancel _ (by decide)]

theorem Whole.milliseconds_mul {d : Duration} (hd : Whole d) : milliseconds d * millisecond = d :=
  Int.tdiv_mul_cancel hd

theorem Whole.milliseconds_pos {d : Duration} (hd : Whole d) (hpos : 0 < d) :
    0 < milliseconds d := by
  rw [← hd.milliseconds_mul] at hpos
  exact (mul_pos_iff_of_pos_right (by decide)).1 hpos

theorem Instant.timeFromMs {t : Time} (ht : Instant t) :
    Redis.timeFromMs (msFromTime t) = t ∧ 0 ≤ msFromTime t := by
  rcases ht with rfl | ⟨hpos, k, rfl⟩
  · exact ⟨rfl, le_rfl⟩
  · have hk : 0 < k := (mul_pos_iff_of_pos_left (by decide)).1 hpos
    have hne : millisecond * k ≠ zeroTime := fun heq ↦ by
      rw [heq] at hpos
      exact absurd hpos (by decide)
    have hms : msFromTime (millisecond * k) = k := by
      rw [msFromTime, if_neg hne, Redis.unixMilli, Int.mul_ediv_cancel_left _ (by decide)]
    rw [hms, timeFromMs_of_pos hk, mul_comm]
    exact ⟨rfl, hk.le⟩

/-- The end of a window that begins now. -/
theorem timeFromMs_add {n : ℤ} {d : Duration} (hn : 0 < n) (hd : Whole d) (hpos : 0 < d) :
    Redis.timeFromMs (n + milliseconds d) = n * millisecond + d := by
  rw [timeFromMs_of_pos (add_pos hn (hd.milliseconds_pos hpos)), add_mul, hd.milliseconds_mul]

/-! ### Envelopes -/

/-- The same envelope, in memory and as a hash. -/
structure Same (j : Job) (h : Hash) : Prop where
  id : j.id = h.id
  named : h.id ≠ ""
  queue : j.queue = h.queue
  type : j.type = h.type
  payload : j.payload = h.payload
  attempt : j.attempt = h.attempt
  maxAttempts : j.maxAttempts = h.maxAttempts
  recoveries : j.recoveries = h.recoveries
  state : j.state = h.state
  owner : j.owner = h.owner
  uniqueKey : j.uniqueKey = h.uniqueKey
  lastErr : h.state ≠ .dead → j.lastErr = h.lastErr
  enqueuedAt : j.enqueuedAt = timeFromMs h.enqueuedAt
  runAt : j.runAt = timeFromMs h.runAt
  startedAt : j.startedAt = timeFromMs h.startedAt
  deadline : j.deadline = timeFromMs h.deadline
  deadline_nonneg : 0 ≤ h.deadline
  budget_pos : 0 < h.maxAttempts
  /-- Doubles hold every attempt count the budget is compared with. -/
  budget_lt : h.maxAttempts < 2 ^ 53

variable {j : Job} {h : Hash}

/-- Both brokers find the attempts of a job spent, or neither does. -/
theorem Same.spent (hs : Same j h) : Redis.spent h.attempt h.maxAttempts = j.exhausted := by
  have hm := Redis.distinguished_of_le hs.budget_pos hs.budget_lt.le
  rw [Job.exhausted, hs.attempt, hs.maxAttempts, Bool.eq_iff_iff, decide_eq_true_iff]
  exact ⟨Redis.le_of_spent hm, Redis.spent_sound _ _⟩

/-- What a client makes of the hash is the envelope without its unique window. -/
theorem Same.decodeJob (hs : Same j h) (hlive : h.state ≠ .dead) :
    Redis.decodeJob h = .ok { j with uniqueTTL := 0 } := by
  obtain ⟨⟩ := j
  rw [Redis.decodeJob, if_neg hs.named]
  simp only [Except.ok.injEq, Job.mk.injEq]
  exact ⟨hs.id.symm, hs.queue.symm, hs.type.symm, hs.payload.symm, hs.attempt.symm,
    hs.maxAttempts.symm, hs.recoveries.symm, hs.state.symm, hs.owner.symm, hs.uniqueKey.symm,
    trivial, (hs.lastErr hlive).symm, hs.enqueuedAt.symm, hs.runAt.symm, hs.startedAt.symm,
    hs.deadline.symm⟩

/-- The stored jobs are the same. -/
def Envelopes (jobs : Table String Job) (hashes : String → Option Entry) : Prop :=
  ∀ id, Option.Rel (fun j e ↦ Same j e.hash) (jobs.lookup id) (hashes id)

section Envelopes

variable {jobs : Table String Job} {hashes : String → Option Entry} {e : Entry}

theorem Envelopes.put (hsame : Envelopes jobs hashes) (id : String) (hs : Same j e.hash) :
    Envelopes (jobs.insert id j) (Function.update hashes id (some e)) := by
  intro x
  by_cases hx : x = id
  · subst hx
    rw [AList.lookup_insert, Function.update_self]
    exact .some hs
  · rw [AList.lookup_insert_ne hx, Function.update_of_ne hx]
    exact hsame x

theorem Envelopes.drop (hsame : Envelopes jobs hashes) (id : String) :
    Envelopes (jobs.erase id) (Function.update hashes id none) := by
  intro x
  by_cases hx : x = id
  · subst hx
    rw [AList.lookup_erase, Function.update_self]
    exact .none
  · rw [AList.lookup_erase_ne hx, Function.update_of_ne hx]
    exact hsame x

end Envelopes

/-! ### Wait sets -/

/-- A map of times and a sorted set have the same members, at the same times. -/
def Mirrors (m : Table String Time) (z : ZSet) : Prop :=
  ∀ id, m.lookup id = (z.lookup id).map timeFromMs ∧ ∀ t, z.lookup id = some t → 0 ≤ t

section Mirrors

variable {m : Table String Time} {z : ZSet}

theorem Mirrors.insert (hm : Mirrors m z) (id : String) {t : ℤ} (ht : 0 ≤ t) :
    Mirrors (m.insert id (timeFromMs t)) (z.insert id t) := by
  intro x
  rw [Table.lookup_insert_eq, Table.lookup_insert_eq]
  by_cases hx : x = id
  · rw [if_pos hx, if_pos hx]
    refine ⟨rfl, fun t' ht' ↦ ?_⟩
    cases ht'
    exact ht
  · rw [if_neg hx, if_neg hx]
    exact hm x

theorem Mirrors.erase (hm : Mirrors m z) (id : String) : Mirrors (m.erase id) (z.erase id) := by
  intro x
  rw [Table.lookup_erase_eq, Table.lookup_erase_eq]
  by_cases hx : x = id
  · rw [if_pos hx, if_pos hx]
    exact ⟨rfl, fun _ h ↦ nomatch h⟩
  · rw [if_neg hx, if_neg hx]
    exact hm x

/-- If a sorted set has the entries a broker selects, the same of them are due, in the same
order. -/
theorem keysOf_due_at {keep : String → Bool} {now : Time} (hnow : 0 ≤ now)
    (hm : ∀ id, (if keep id then m.lookup id else none) = (z.lookup id).map timeFromMs)
    (hz : ∀ id t, z.lookup id = some t → 0 ≤ t) :
    Table.keysOf (m.due keep now) = Table.keysOf (z.due (fun _ ↦ true) (now / millisecond)) := by
  refine Table.keysOf_due_eq strictMonoOn_timeFromMs (fun p hp ↦ ?_) fun t k ↦ ?_
  · exact hz _ _ (Table.mem_due.1 hp).1
  · have hentry : m.lookup k = some t ∧ keep k = true ↔
        ∃ t₀, z.lookup k = some t₀ ∧ timeFromMs t₀ = t := by
      rw [← Option.map_eq_some_iff, ← hm k]
      split_ifs with hkeep
      · exact and_iff_left hkeep
      · exact iff_of_false (fun h ↦ hkeep h.2) (fun h ↦ nomatch h)
    simp only [Table.mem_due, ofLex_toLex, and_true]
    rw [and_left_comm, and_comm, hentry]
    constructor
    · rintro ⟨⟨t₀, ht₀, rfl⟩, hle⟩
      exact ⟨t₀, ⟨ht₀, (timeFromMs_le_iff_ediv hnow (hz k t₀ ht₀)).1 hle⟩, rfl⟩
    · rintro ⟨t₀, ⟨ht₀, hle⟩, rfl⟩
      exact ⟨⟨t₀, ht₀, rfl⟩, (timeFromMs_le_iff_ediv hnow (hz k t₀ ht₀)).2 hle⟩

/-- The same members are due, in the same order. -/
theorem Mirrors.due_at (hm : Mirrors m z) {now : Time} (hnow : 0 ≤ now) :
    Table.keysOf (m.due (fun _ ↦ true) now) =
      Table.keysOf (z.due (fun _ ↦ true) (now / millisecond)) :=
  keysOf_due_at hnow (fun id ↦ (hm id).1) fun id ↦ (hm id).2

theorem Mirrors.due (hm : Mirrors m z) {n : ℤ} (hn : 0 < n) :
    Table.keysOf (m.due (fun _ ↦ true) (n * millisecond)) =
      Table.keysOf (z.due (fun _ ↦ true) n) := by
  rw [hm.due_at (mul_nonneg hn.le (by decide)), Int.mul_ediv_cancel _ (by decide)]

end Mirrors

/-! ### The relation -/

/-- The job that holds a unique key at a time. -/
def holder (s : Store) (key : String) (n : ℤ) : Option String :=
  (s.unique key).bind fun u ↦ if n < u.expireAt then some u.value else none

/-- **The relation between the two brokers** when both clocks read at least `clock`
milliseconds. -/
structure Lockstep (clock : ℤ) (b : Broker) (s : Store) : Prop where
  opened : b.closed = false
  memory : b.Located
  redis : s.Located
  jobs : Envelopes b.jobs s.job
  ready : b.pending = s.ready
  scheduled : Mirrors b.scheduled s.delayed
  retry : Mirrors b.retry s.retry
  unique : ∀ key, key ≠ "" → ∀ n, clock ≤ n →
    b.uniqueHolder (n * millisecond) key = holder s key n

variable {n : ℤ} {b : Broker} {s : Store} {id q w : String} {e : Entry}

theorem Lockstep.of_hash (L : Lockstep n b s) (he : s.job id = some e) :
    ∃ j, b.jobs.lookup id = some j ∧ Same j e.hash := by
  have hrel := L.jobs id
  rw [he] at hrel
  rcases hj : b.jobs.lookup id with _ | j
  · rw [hj] at hrel
    cases hrel
  · rw [hj] at hrel
    cases hrel with
    | some hsame => exact ⟨j, rfl, hsame⟩

theorem Lockstep.of_job (L : Lockstep n b s) (hj : b.jobs.lookup id = some j) :
    ∃ e, s.job id = some e ∧ Same j e.hash := by
  have hrel := L.jobs id
  rw [hj] at hrel
  rcases he : s.job id with _ | e
  · rw [he] at hrel
    cases hrel
  · rw [he] at hrel
    cases hrel with
    | some hsame => exact ⟨e, rfl, hsame⟩

/-- An ID one broker does not know is unknown to the other. -/
theorem Lockstep.absent (L : Lockstep n b s) (hj : b.jobs.lookup id = none) : s.job id = none := by
  rcases he : s.job id with _ | e
  · rfl
  · obtain ⟨j, hj', -⟩ := L.of_hash he
    rw [hj] at hj'
    cases hj'

/-! ### Moves -/

/-- The head of a ready list is claimed. -/
theorem Lockstep.claim (L : Lockstep n b s) (hn : 0 < n) {rest : List String} {vt : Duration}
    (hvt : Whole vt) (hpos : 0 < vt) (hq : s.ready q = id :: rest) (hj : b.jobs.lookup id = some j)
    (he : s.job id = some e) (hsame : Same j e.hash) (hw : w ≠ "") :
    Lockstep n ((b.pop q).claim (n * millisecond) id j w vt)
      (Redis.Script.claim (s.lpop q) n w (milliseconds vt) q id e.hash) where
  opened := L.opened
  memory := (Memory.Broker.moves_claim L.memory (by rw [L.ready]; exact hq) hj hw).located
  redis := (moves_claim L.redis hq he hw).located
  jobs := L.jobs.put id (e := ⟨_, _⟩) <| by
    obtain ⟨e', he', hpend, -⟩ := L.redis.of_head hq
    obtain rfl : e = e' := Option.some.inj (he.symm.trans he')
    have hdeadline := timeFromMs_add hn hvt hpos
    exact { hsame with
      attempt := congrArg (· + 1) hsame.attempt
      state := rfl
      owner := rfl
      lastErr := fun _ ↦ hsame.lastErr (by rw [hpend]; decide)
      startedAt := (timeFromMs_of_pos hn).symm
      deadline := hdeadline.symm
      deadline_nonneg := (add_pos hn (hvt.milliseconds_pos hpos)).le }
  ready := by
    show Function.update b.pending q (b.pending q).tail = Function.update s.ready q (s.ready q).tail
    rw [L.ready]
  scheduled := L.scheduled
  retry := L.retry
  unique := L.unique

/-- A claimed job is done with. -/
theorem Lockstep.finish (L : Lockstep n b s) (hj : b.jobs.lookup id = some j)
    (he : s.job id = some e) (hsame : Same j e.hash) (hact : j.state = .active) (k k' : ℤ) :
    Lockstep n { b with active := b.active.erase id, jobs := b.jobs.erase id, processed := k }
      ({ s.zremActive e.hash.queue id with processed := k' }.del id) where
  opened := L.opened
  memory := (Memory.Broker.moves_ack L.memory hj hact k).located
  redis := (moves_delete L.redis he (hsame.state ▸ hact) k').located
  jobs := L.jobs.drop id
  ready := L.ready
  scheduled := L.scheduled
  retry := L.retry
  unique := L.unique

/-- A claimed job is dead-lettered by its worker. -/
theorem Lockstep.bury (L : Lockstep n b s) (hj : b.jobs.lookup id = some j)
    (he : s.job id = some e) (hsame : Same j e.hash) (hact : j.state = .active) (now : ℤ)
    (reason : String) :
    Lockstep n ((b.dropLease id).moveToDeadLocked id { j with owner := "", lastErr := reason })
      (Redis.Script.deadLetter (s.zremActive e.hash.queue id) now id
        { e.hash with lastErr := reason }) where
  opened := L.opened
  -- any event that kills a job will do to see that it is where it belongs
  memory := by
    refine Memory.Broker.Moves.located (e := .killed j.owner)
      (Memory.Broker.moves_dead L.memory hj hact (L.memory.keyed id j hj) ?_)
    simp [Memory.Broker.life_eq_some hj, Memory.Broker.phase, hact, Life.advance]
  redis := by
    have hact : e.hash.state = .active := hsame.state ▸ hact
    refine Moves.located (show Moves s id (.killed e.hash.owner) _ from
      moves_dead L.redis he hact (L.redis.keyed id e he) ?_)
    simp [life_eq_some he, phase, hact, Life.advance]
  jobs := L.jobs.put id (e := ⟨_, _⟩)
    { hsame with
      state := rfl
      owner := rfl
      lastErr := fun hne ↦ absurd rfl hne }
  ready := L.ready
  scheduled := L.scheduled
  retry := L.retry
  unique := L.unique

/-- A claimed job is put into the retry set. -/
theorem Lockstep.retryLater (L : Lockstep n b s) (hj : b.jobs.lookup id = some j)
    (he : s.job id = some e) (hsame : Same j e.hash) (hact : j.state = .active)
    (hleft : j.exhausted = false) {retryAt : Time} (hr : Instant retryAt) (reason : String) :
    Lockstep n
      { b.dropLease id with
        jobs := b.jobs.insert id { j with owner := "", lastErr := reason, state := .retry }
        retry := b.retry.insert id retryAt }
      { (s.zremActive e.hash.queue id).hset id
          { e.hash with lastErr := reason, owner := "", state := .retry } with
        retry := s.retry.insert id (msFromTime retryAt) } where
  opened := L.opened
  memory := (Memory.Broker.moves_retry L.memory hj hact hleft retryAt reason).located
  redis := (moves_retry L.redis he (hsame.state ▸ hact) (hsame.spent.trans hleft) _ reason).located
  jobs := L.jobs.put id (e := ⟨_, _⟩)
    { hsame with
      state := rfl
      owner := rfl
      lastErr := fun _ ↦ rfl }
  ready := L.ready
  scheduled := L.scheduled
  retry := by
    have hinsert := L.retry.insert id hr.timeFromMs.2
    rwa [hr.timeFromMs.1] at hinsert
  unique := L.unique

/-- A lease is pushed back. -/
theorem Lockstep.renew (L : Lockstep n b s) (hj : b.jobs.lookup id = some j)
    (he : s.job id = some e) (hsame : Same j e.hash) (hact : j.state = .active) {d : ℤ}
    (hd : 0 ≤ d) :
    Lockstep n (b.renew id j (timeFromMs d)) (Redis.Script.renew s id e.hash d) where
  opened := L.opened
  memory := (Memory.Broker.moves_renew L.memory hj hact _).located
  redis := (moves_renew L.redis he (hsame.state ▸ hact) _).located
  jobs := L.jobs.put id (e := ⟨_, _⟩)
    { hsame with
      deadline := rfl
      deadline_nonneg := hd }
  ready := L.ready
  scheduled := L.scheduled
  retry := L.retry
  unique := L.unique

/-- The lease on a job ended by expiry. -/
theorem Lockstep.recover (L : Lockstep n b s) (hn : 0 < n) (hj : b.jobs.lookup id = some j)
    (he : s.job id = some e) (hsame : Same j e.hash) (hact : j.state = .active)
    (hle : e.hash.deadline ≤ n) :
    Lockstep n (b.recover id j)
      (Redis.Script.recover (s.zremActive e.hash.queue id) n e.hash.queue id e.hash) := by
  have hle' : j.deadline ≤ n * millisecond := by
    rw [hsame.deadline]
    exact (timeFromMs_le_iff hn hsame.deadline_nonneg).2 hle
  have hmemory := (Memory.Broker.moves_recover L.memory hj hact hle').located
  have hredis := (moves_recover L.redis he (hsame.state ▸ hact) hle).located
  have hrec : j.recoveries + 1 = e.hash.recoveries + 1 := congrArg (· + 1) hsame.recoveries
  rw [Broker.recover] at hmemory ⊢
  rw [Redis.Script.recover] at hredis ⊢
  have hspent := hsame.spent
  rcases hex : j.exhausted with _ | _
  · rw [hex] at hspent
    simp only [hspent, show Job.exhausted { j with owner := "", recoveries := j.recoveries + 1 } =
      false from hex, Bool.false_eq_true, if_false] at hmemory hredis ⊢
    refine ⟨L.opened, hmemory, hredis, L.jobs.put id (e := ⟨_, _⟩) ?_, ?_, L.scheduled, L.retry,
      L.unique⟩
    · exact { hsame with
        recoveries := hrec
        state := rfl
        owner := rfl
        lastErr := fun _ ↦ hsame.lastErr (by rw [← hsame.state, hact]; decide) }
    · show Function.update b.pending j.queue (id :: b.pending j.queue) =
        Function.update s.ready e.hash.queue (id :: s.ready e.hash.queue)
      rw [L.ready, hsame.queue]
  · rw [hex] at hspent
    simp only [hspent, show Job.exhausted { j with owner := "", recoveries := j.recoveries + 1 } =
      true from hex, if_true] at hmemory hredis ⊢
    refine ⟨L.opened, hmemory, hredis, L.jobs.put id (e := ⟨_, _⟩) ?_, L.ready, L.scheduled,
      L.retry, L.unique⟩
    exact { hsame with
      recoveries := hrec
      state := rfl
      owner := rfl
      lastErr := fun hne ↦ absurd rfl hne }

/-- The wait set of the in-memory broker that stands for one of Redis. -/
def waitSet : Redis.Script.WaitSet → Memory.Broker.WaitSet
  | .delayed => .scheduled
  | .retry => .retry

theorem Lockstep.wait (L : Lockstep n b s) (set : Redis.Script.WaitSet) :
    Mirrors (b.waitSet (waitSet set)) (Redis.Script.waitSet s set) := by
  cases set with
  | delayed => exact L.scheduled
  | retry => exact L.retry

/-- A due job goes to its ready list. -/
theorem Lockstep.promote (L : Lockstep n b s) (hn : 0 < n) {set : Redis.Script.WaitSet} {t : ℤ}
    (hj : b.jobs.lookup id = some j) (he : s.job id = some e) (hsame : Same j e.hash)
    (ht : (Redis.Script.waitSet s set).lookup id = some t) (hle : t ≤ n) :
    Lockstep n (b.promoteJob (waitSet set) id j)
      (Redis.Script.promoteJob (Redis.Script.zremWait s set id) id e.hash) := by
  obtain ⟨hmirror, hnonneg⟩ := L.wait set id
  rw [ht] at hmirror
  have hmemory := (Memory.Broker.moves_promote L.memory hj hmirror
    ((timeFromMs_le_iff hn (hnonneg t ht)).2 hle)).located
  have hredis := (moves_promote L.redis ht he hle).located
  obtain ⟨e', he', hstate⟩ := L.redis.of_waitSet ht
  obtain rfl : e = e' := Option.some.inj (he.symm.trans he')
  have hput : Same { j with state := .pending } { e.hash with state := .pending, owner := "" } :=
    { hsame with
      state := rfl
      owner := hsame.owner.trans (L.redis.owner_eq he (by rw [hstate]; cases set <;> decide))
      lastErr := fun _ ↦ hsame.lastErr (by rw [hstate]; cases set <;> decide) }
  have hready : Function.update b.pending j.queue (b.pending j.queue ++ [id]) =
      Function.update s.ready e.hash.queue (s.ready e.hash.queue ++ [id]) := by
    rw [L.ready, hsame.queue]
  cases set with
  | delayed =>
    exact ⟨L.opened, hmemory, hredis, L.jobs.put id (e := ⟨_, _⟩) hput, hready,
      L.scheduled.erase id, L.retry, L.unique⟩
  | retry =>
    exact ⟨L.opened, hmemory, hredis, L.jobs.put id (e := ⟨_, _⟩) hput, hready, L.scheduled,
      L.retry.erase id, L.unique⟩

/-! ### A new job -/

/-- A job on its way into a broker: it has an ID, an attempt budget and the time of its enqueueing,
and nothing has happened to it yet. -/
structure Submitted (n : ℤ) (j : Job) : Prop where
  named : j.id ≠ ""
  attempt : j.attempt = 0
  recoveries : j.recoveries = 0
  lastErr : j.lastErr = ""
  enqueuedAt : j.enqueuedAt = n * millisecond
  startedAt : j.startedAt = zeroTime
  deadline : j.deadline = zeroTime
  runAt : Instant j.runAt
  budget_pos : 0 < j.maxAttempts
  budget_lt : j.maxAttempts < 2 ^ 53

theorem Submitted.waits_iff (hj : Submitted n j) (hn : 0 < n) :
    n * millisecond < j.runAt ↔ n < msFromTime j.runAt := by
  obtain ⟨htime, hnonneg⟩ := hj.runAt.timeFromMs
  have hle := timeFromMs_le_iff hn hnonneg
  rw [htime] at hle
  exact not_le.symm.trans (hle.not.trans not_le)

/-- The envelope one broker stores and the hash the other writes. -/
theorem Submitted.same (hj : Submitted n j) (hn : 0 < n) :
    Same { j with owner := "", state := if n * millisecond < j.runAt then .scheduled else .pending }
      (Redis.jobHash n j) where
  id := rfl
  named := hj.named
  queue := rfl
  type := rfl
  payload := rfl
  attempt := hj.attempt
  maxAttempts := rfl
  recoveries := hj.recoveries
  state := if_congr (hj.waits_iff hn) rfl rfl
  owner := rfl
  uniqueKey := rfl
  lastErr := fun _ ↦ hj.lastErr
  enqueuedAt := hj.enqueuedAt.trans (timeFromMs_of_pos hn).symm
  runAt := hj.runAt.timeFromMs.1.symm
  startedAt := hj.startedAt
  deadline := hj.deadline
  deadline_nonneg := le_rfl
  budget_pos := hj.budget_pos
  budget_lt := hj.budget_lt

/-- A new job is stored, beside whatever becomes of the unique keys. -/
theorem Lockstep.store (L : Lockstep n b s) (hn : 0 < n) {s₁ : Store} (hsame : SameJobs s s₁)
    (hj : Submitted n j) (hid : b.jobs.lookup j.id = none)
    (hunique : ∀ key, key ≠ "" → ∀ m, n ≤ m →
      (b.store (n * millisecond) j).uniqueHolder (m * millisecond) key = holder s₁ key m) :
    Lockstep n (b.store (n * millisecond) j) (Redis.Script.place s₁ (Redis.jobHash n j)) := by
  have hlocated : s₁.Located := (hsame.steps L.redis).located
  have hid' : s₁.job (Redis.jobHash n j).id = none := by
    rw [hsame.job]
    exact L.absent hid
  have hmemory : (b.store (n * millisecond) j).Located :=
    (Memory.Broker.moves_store L.memory hid).located
  have hredis := (moves_place hlocated hid' rfl (Redis.jobHash_state n j)).located
  have hjobs : Envelopes b.jobs s₁.job := by rw [hsame.job]; exact L.jobs
  have hready : b.pending = s₁.ready := by rw [hsame.ready]; exact L.ready
  have hdelayed : Mirrors b.scheduled s₁.delayed := by rw [hsame.delayed]; exact L.scheduled
  have hretry : Mirrors b.retry s₁.retry := by rw [hsame.retry]; exact L.retry
  have hput := hj.same hn
  have hstate : (Redis.jobHash n j).state =
      if n < msFromTime j.runAt then .scheduled else .pending := rfl
  have hwaits := hj.waits_iff hn
  rw [Broker.store] at hmemory hunique ⊢
  rw [Redis.Script.place] at hredis ⊢
  by_cases hwait : n < msFromTime j.runAt
  · simp only [hstate, if_pos hwait, if_pos (hwaits.2 hwait)] at hmemory hunique hredis hput ⊢
    refine ⟨L.opened, hmemory, hredis, hjobs.put j.id (e := ⟨_, _⟩) hput, hready, ?_, hretry,
      hunique⟩
    have hinsert := hdelayed.insert j.id hj.runAt.timeFromMs.2
    rwa [hj.runAt.timeFromMs.1] at hinsert
  · simp only [hstate, if_neg hwait, if_neg (mt hwaits.1 hwait), reduceCtorEq, if_false]
      at hmemory hunique hredis hput ⊢
    refine ⟨L.opened, hmemory, hredis, hjobs.put j.id (e := ⟨_, _⟩) hput, ?_, hdelayed, hretry,
      hunique⟩
    show Function.update b.pending j.queue (b.pending j.queue ++ [j.id]) =
      Function.update s₁.ready j.queue (s₁.ready j.queue ++ [j.id])
    rw [hready]

end TaskQueue.Conformance
