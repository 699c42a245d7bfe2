import TaskQueue.Conformance.Lockstep

/-!
# The in-memory broker is a reference for the Redis broker

Both brokers are given the same requests at the same times, and they answer the same: the same
error, the same count, the same list of lost leases and, from a `Dequeue`, the same envelope up to
the unique window, which Redis does not keep. `Lockstep` is the simulation relation;
`memory_is_reference` says that it holds of the two empty brokers, that every request keeps it, and
that under it the answers agree.

What a request has to respect (`Permitted`) is what makes the comparison fair.

* Times and durations are whole milliseconds, since Redis keeps nothing finer.
* A job comes in as a producer makes it, under an ID that is new, with a budget a double can hold.
* `Reap` names one queue. Over several, one broker sorts the expired leases of all of them together
  and the other goes through them queue by queue.
* When a `Promote` runs, jobs are due in one of the two wait sets at most, for the same reason.
* The limit of a `Reap` or a `Promote` is one that a double holds, because a script makes one of it.
  With `2 ^ 63 - 1` Redis refuses the call, and the in-memory broker does the work
  (`huge_limit_refused`).
-/

namespace TaskQueue.Conformance

open Memory (Broker)
open Redis (Hash Entry Store Config timeFromMs msFromTime milliseconds)

/-! ### Requests -/

/-- The operations both brokers are asked for. -/
inductive Op
  /-- `newID` is what `NewID` returns if the call asks for one, `wall` the clock of the Redis
  client. -/
  | enqueue (newID : String) (wall : Time) (j : Option Job)
  | dequeue (o : ClaimOpts)
  | ack (workerID jobID : String)
  | nack (workerID jobID : String) (retryAt : Time) (reason : String)
  | kill (workerID jobID reason : String)
  | extend (workerID : String) (jobIDs : List String) (vt : Duration)
  | reap (queue : String) (limit : ℤ)
  | promote (limit : ℤ)

/-- The operation as a call of the in-memory broker. -/
def Op.onMemory : Op → Memory.Op
  | .enqueue newID _ j => .enqueue newID j
  | .dequeue o => .dequeue o
  | .ack w i => .ack w i
  | .nack w i r reason => .nack w i r reason
  | .kill w i reason => .kill w i reason
  | .extend w ids vt => .extend w ids vt
  | .reap q limit => .reap [q] limit
  | .promote limit => .promote limit

/-- The operation as a call of the Redis broker. -/
def Op.onRedis : Op → Redis.Op
  | .enqueue newID wall j => .enqueue newID wall j
  | .dequeue o => .dequeue o
  | .ack w i => .ack w i
  | .nack w i r reason => .nack w i r reason
  | .kill w i reason => .kill w i reason
  | .extend w ids vt => .extend w ids vt
  | .reap q limit => .reap q limit
  | .promote limit => .promote limit

/-- A request: what both clocks read, in milliseconds, and the operation. -/
structure Request where
  now : ℤ
  op : Op

/-- The request as the in-memory broker gets it, its clock in nanoseconds. -/
def Request.onMemory (r : Request) : Memory.Call := ⟨r.now * millisecond, r.op.onMemory⟩

/-- The request as the Redis broker gets it. -/
def Request.onRedis (r : Request) : Redis.Call := ⟨r.now, r.op.onRedis⟩

/-- The same outcome: of the in-memory broker first, of the Redis broker second. -/
def Agrees : Reply → Reply → Prop
  | .failed e, .failed e' => e = e'
  | .done, .done => True
  | .stored j, .stored j' => j.id = j'.id
  -- Redis does not keep the unique window
  | .claimed j, .claimed j' => { j with uniqueTTL := 0 } = j'
  | .lost ids, .lost ids' => ids = ids'
  | .count n, .count n' => n = n'
  | _, _ => False

/-- The two brokers after a request, in lockstep and with the same outcome. -/
def InStep (n : ℤ) (r : Reply × Broker) (r' : Reply × Store) : Prop :=
  Agrees r.1 r'.1 ∧ Lockstep n r.2 r'.2

variable {n : ℤ} {b : Broker} {s : Store} {ttl : Duration}

/-- Both brokers refuse. -/
theorem Lockstep.refused (L : Lockstep n b s) (e : Err) : InStep n (.failed e, b) (.failed e, s) :=
  ⟨rfl, L⟩

/-! ### Enqueue -/

/-- What a producer may ask of both brokers. -/
structure Fair (newID : String) (j : Job) : Prop where
  named : newID ≠ ""
  attempt : j.attempt = 0
  recoveries : j.recoveries = 0
  lastErr : j.lastErr = ""
  owner : j.owner = ""
  enqueuedAt : j.enqueuedAt = zeroTime
  startedAt : j.startedAt = zeroTime
  deadline : j.deadline = zeroTime
  runAt : Instant j.runAt
  uniqueTTL : Whole j.uniqueTTL
  budget : j.maxAttempts < 2 ^ 53

variable {newID : String} {j : Job}

theorem Fair.submitted (hj : Fair newID j) (n : ℤ) :
    Submitted n (Broker.stamped (n * millisecond) newID j) where
  named := by
    show (if j.id = "" then newID else j.id) ≠ ""
    split_ifs with hid
    · exact hj.named
    · exact hid
  attempt := hj.attempt
  recoveries := hj.recoveries
  lastErr := hj.lastErr
  enqueuedAt := if_pos hj.enqueuedAt
  startedAt := hj.startedAt
  deadline := hj.deadline
  runAt := hj.runAt
  budget_pos := by
    show 0 < if j.maxAttempts ≤ 0 then defaultMaxAttempts else j.maxAttempts
    split_ifs with hle
    · decide
    · omega
  budget_lt := by
    show (if j.maxAttempts ≤ 0 then defaultMaxAttempts else j.maxAttempts) < 2 ^ 53
    split_ifs
    · decide
    · exact hj.budget

/-- A unique window is positive and whole. -/
theorem Fair.window (hj : Fair newID j) : Whole j.uniqueWindow ∧ 0 < j.uniqueWindow := by
  rw [Job.uniqueWindow]
  split_ifs with hle
  · exact ⟨⟨3600 * 10 ^ 3, rfl⟩, by decide⟩
  · exact ⟨hj.uniqueTTL, not_le.1 hle⟩

/-- Who holds a key after a job was stored in the in-memory broker. -/
theorem uniqueHolder_store (b : Broker) (now t : Time) (j : Job) {key : String} (hkey : key ≠ "") :
    (b.store now j).uniqueHolder t key =
      if key = j.uniqueKey then if t < now + j.uniqueWindow then some j.id else none
      else b.uniqueHolder t key := by
  have hunique : (b.store now j).unique = if j.uniqueKey = "" then b.unique
      else b.unique.insert j.uniqueKey ⟨j.id, now + j.uniqueWindow⟩ := by
    by_cases hwait : now < j.runAt
    · simp only [Broker.store, if_pos hwait]
    · simp only [Broker.store, if_neg hwait]
  rw [Broker.uniqueHolder, Broker.uniqueHolder, if_neg hkey, if_neg hkey, hunique]
  by_cases heq : key = j.uniqueKey
  · rw [if_pos heq, if_neg (heq ▸ hkey), heq, AList.lookup_insert]
    rfl
  · rw [if_neg heq]
    split_ifs
    · rfl
    · rw [AList.lookup_insert_ne heq]

/-- **The unique check and what follows it.** Both brokers find the same job in the way of the new
one, or both store it. -/
theorem Lockstep.submit (L : Lockstep n b s) (hn : 0 < n) (hj : Submitted n j)
    (hwin : Whole j.uniqueWindow ∧ 0 < j.uniqueWindow) (hid : b.jobs.lookup j.id = none)
    (hlive : ∀ key u, s.unique key = some u → n < u.expireAt) :
    (∃ existing, b.uniqueHolder (n * millisecond) j.uniqueKey = some existing ∧
      Redis.Script.enqueue s n (Redis.jobHash n j) (Redis.uniqueTTL j) = (.error existing, s)) ∨
    b.uniqueHolder (n * millisecond) j.uniqueKey = none ∧
      ∃ s', Redis.Script.enqueue s n (Redis.jobHash n j) (Redis.uniqueTTL j) = (.ok (), s') ∧
        Lockstep n (b.store (n * millisecond) j) s' := by
  rw [Redis.Script.enqueue]
  by_cases hkey : j.uniqueKey = ""
  · have hzero : Redis.uniqueTTL j = 0 := if_pos hkey
    rw [hzero, if_neg (lt_irrefl 0)]
    refine .inr ⟨if_pos hkey, _, rfl, L.store hn ⟨rfl, rfl, rfl, rfl, rfl, rfl⟩ hj hid ?_⟩
    intro key hne m hm
    rw [uniqueHolder_store b _ _ _ hne, if_neg fun h ↦ hne (h.trans hkey)]
    exact L.unique key hne m hm
  · have hms : Redis.uniqueTTL j = milliseconds j.uniqueWindow := if_neg hkey
    have hholder := L.unique j.uniqueKey hkey n le_rfl
    rw [hms, if_pos (hwin.1.milliseconds_pos hwin.2), hholder, holder]
    rcases hu : s.unique j.uniqueKey with _ | u
    · have hnone : s.unique (Redis.jobHash n j).uniqueKey = none := hu
      rw [hnone]
      refine .inr ⟨rfl, _, rfl, L.store hn ⟨rfl, rfl, rfl, rfl, rfl, rfl⟩ hj hid ?_⟩
      intro key hne m hm
      rw [uniqueHolder_store b _ _ _ hne, holder]
      by_cases heq : key = j.uniqueKey
      · subst heq
        have hlt : m * millisecond < n * millisecond + j.uniqueWindow ↔
            m < n + milliseconds j.uniqueWindow := by
          have hend : n * millisecond + j.uniqueWindow =
              (n + milliseconds j.uniqueWindow) * millisecond := by
            rw [add_mul, hwin.1.milliseconds_mul]
          rw [hend]
          exact mul_lt_mul_iff_of_pos_right (show 0 < millisecond by decide)
        rw [if_pos rfl]
        show _ = Option.bind (Function.update s.unique j.uniqueKey _ j.uniqueKey) _
        rw [Function.update_self]
        exact if_congr hlt rfl rfl
      · rw [if_neg heq]
        show _ = Option.bind (Function.update s.unique j.uniqueKey _ key) _
        rw [Function.update_of_ne heq]
        exact L.unique key hne m hm
    · have hsome : s.unique (Redis.jobHash n j).uniqueKey = some u := hu
      rw [hsome]
      exact .inl ⟨u.value, if_pos (hlive _ u hu), rfl⟩

theorem inStep_enqueue (L : Lockstep n b s) (hn : 0 < n) (wall : Time) {o : Option Job}
    (hlive : ∀ key u, s.unique key = some u → n < u.expireAt)
    (ho : ∀ j, o = some j → Fair newID j ∧ b.jobs.lookup (j.assigned newID).id = none) :
    InStep n (Memory.exec b ⟨n * millisecond, .enqueue newID o⟩)
      (Redis.run ttl s n (.enqueue newID wall o)) := by
  simp only [Memory.exec, Redis.run]
  rcases o with _ | j
  · exact L.refused _
  · obtain ⟨hj, hid⟩ := ho j rfl
    rw [Broker.enqueue, Redis.enqueue]
    by_cases hqueue : j.queue = ""
    · rw [if_pos hqueue, if_pos hqueue]
      exact L.refused _
    · by_cases htype : j.type = ""
      · rw [if_neg hqueue, if_neg hqueue, if_pos htype, if_pos htype]
        exact L.refused _
      · have hopen : ¬ b.closed = true := by rw [L.opened]; decide
        rw [if_neg hqueue, if_neg hqueue, if_neg htype, if_neg htype, if_neg hopen]
        -- the hash does not depend on when the caller says the job was enqueued
        have hhash : Redis.jobHash n (Broker.stamped (n * millisecond) newID j) =
          Redis.jobHash n (j.assigned newID) := rfl
        have httl : Redis.uniqueTTL (Broker.stamped (n * millisecond) newID j) =
          Redis.uniqueTTL (j.assigned newID) := rfl
        have hkey : (Broker.stamped (n * millisecond) newID j).uniqueKey = j.uniqueKey := rfl
        rcases L.submit hn (hj.submitted n) hj.window hid hlive with
          ⟨existing, hmem, hredis⟩ | ⟨hmem, s', hredis, L'⟩
        · rw [hkey] at hmem
          rw [hhash, httl] at hredis
          simp only [hmem, hredis]
          exact L.refused _
        · rw [hkey] at hmem
          rw [hhash, httl] at hredis
          simp only [hmem, hredis]
          exact ⟨rfl, L'⟩

/-! ### Dequeue -/

/-- Both walks over the queues end empty-handed, or both claim the same head. -/
theorem Lockstep.walk (L : Lockstep n b s) (w : String) (vt : Duration) (queues : List String) :
    (Broker.dequeueFrom (n * millisecond) w vt queues b = (.error .noJob, b) ∧
      Redis.Script.dequeue n w (milliseconds vt) queues s = (none, s)) ∨
    ∃ q id rest j e, s.ready q = id :: rest ∧ b.jobs.lookup id = some j ∧ s.job id = some e ∧
      Same j e.hash ∧
      Broker.dequeueFrom (n * millisecond) w vt queues b =
        (.ok (Broker.claimedJob (n * millisecond) j w vt),
          (b.pop q).claim (n * millisecond) id j w vt) ∧
      Redis.Script.dequeue n w (milliseconds vt) queues s =
        (some (Redis.Script.claimed n w (milliseconds vt) e.hash),
          Redis.Script.claim (s.lpop q) n w (milliseconds vt) q id e.hash) := by
  induction queues with
  | nil => exact .inl ⟨rfl, rfl⟩
  | cons q queues ih =>
    rw [Broker.dequeueFrom, Redis.Script.dequeue, L.ready]
    rcases Redis.Store.popJob_cases L.redis n w (milliseconds vt) q 19 with
      ⟨hpop, hq⟩ | ⟨id, rest, e, hq, he, hpop⟩
    · simp only [hpop, hq]
      exact ih
    · obtain ⟨j, hj, hsame⟩ := L.of_hash he
      simp only [hpop, hq, hj]
      exact .inr ⟨q, id, rest, j, e, hq, hj, he, hsame, rfl, rfl⟩

theorem inStep_dequeue (L : Lockstep n b s) (hn : 0 < n) {o : ClaimOpts}
    (hvt : Whole o.visibilityTimeout) :
    InStep n (Memory.exec b ⟨n * millisecond, .dequeue o⟩) (Redis.run ttl s n (.dequeue o)) := by
  simp only [Memory.exec, Redis.run, Redis.dequeue]
  rw [Broker.dequeue, Redis.claimNext]
  by_cases hw : o.workerID = ""
  · rw [if_pos hw, if_pos hw]
    exact L.refused _
  · by_cases hpos : o.visibilityTimeout ≤ 0
    · rw [if_neg hw, if_neg hw, if_pos hpos, if_pos hpos]
      exact L.refused _
    · have hopen : ¬ b.closed = true := by rw [L.opened]; decide
      rw [if_neg hw, if_neg hw, if_neg hpos, if_neg hpos, if_neg hopen]
      by_cases hnil : o.queues = []
      · rw [if_pos hnil, hnil]
        exact L.refused _
      · rw [if_neg hnil]
        rcases L.walk o.workerID o.visibilityTimeout o.queues with
          ⟨hmem, hredis⟩ | ⟨q, id, rest, j, e, hq, hj, he, hsame, hmem, hredis⟩
        · rw [hmem, hredis]
          exact L.refused _
        · have hclaim := L.claim hn hvt (not_le.1 hpos) hq hj he hsame hw
          obtain ⟨j', hj', hsame'⟩ := hclaim.of_hash (Function.update_self _ _ _)
          obtain rfl := Option.some.inj ((AList.lookup_insert _).symm.trans hj')
          rw [hmem, hredis]
          refine ⟨?_, hclaim⟩
          show Agrees _ (Reply.of _ (Redis.decodeJob _))
          rw [hsame'.decodeJob (show State.active ≠ .dead by decide)]
          rfl

/-! ### Reports -/

/-- The fences of both brokers give the same answer. -/
theorem Lockstep.fence (L : Lockstep n b s) (w id : String) :
    (b.ownedActive w id = .error (.jobNotFound id) ∧
      Redis.Script.fence s w id = .error .notfound) ∨
    (∃ state owner, b.ownedActive w id = .error (.leaseLost id state owner w) ∧
      Redis.Script.fence s w id = .error (.lease state owner)) ∨
    ∃ j e, b.jobs.lookup id = some j ∧ s.job id = some e ∧ Same j e.hash ∧ j.state = .active ∧
      b.ownedActive w id = .ok j ∧ Redis.Script.fence s w id = .ok e.hash := by
  rw [Broker.ownedActive, Redis.Script.fence]
  rcases hj : b.jobs.lookup id with _ | j
  · rw [L.absent hj]
    exact .inl ⟨rfl, rfl⟩
  · rcases he : s.job id with _ | e
    · have hrel := L.jobs id
      rw [hj, he] at hrel
      cases hrel
    · obtain ⟨j', hj', hsame⟩ := L.of_hash he
      obtain rfl : j = j' := Option.some.inj (hj.symm.trans hj')
      by_cases hfence : j.state ≠ .active ∨ j.owner ≠ w
      · refine .inr (.inl ⟨j.state, j.owner, if_pos hfence, ?_⟩)
        simp only [← hsame.state, ← hsame.owner, if_pos hfence]
      · refine .inr (.inr ⟨j, e, rfl, rfl, hsame, ?_, if_neg hfence, ?_⟩)
        · by_contra hne
          exact hfence (.inl hne)
        · simp only [← hsame.state, ← hsame.owner, if_neg hfence]

theorem inStep_ack (L : Lockstep n b s) (w id : String) :
    InStep n (Memory.exec b ⟨n * millisecond, .ack w id⟩) (Redis.run 0 s n (.ack w id)) := by
  simp only [Memory.exec, Redis.run, Redis.ack]
  rw [Broker.ack, Redis.Script.ack, if_neg (show ¬ b.closed = true by rw [L.opened]; decide)]
  rcases L.fence w id with ⟨hmem, hredis⟩ | ⟨state, owner, hmem, hredis⟩ |
    ⟨j, e, hj, he, hsame, hact, hmem, hredis⟩
  · rw [hmem, hredis]
    exact L.refused _
  · rw [hmem, hredis]
    exact L.refused _
  · rw [hmem, hredis]
    have hstep : ¬ canTransition j.state .completed = false := by rw [hact]; decide
    obtain rfl := L.redis.keyed id e he
    simp only [if_neg hstep, show ¬ 0 < milliseconds 0 from by decide, if_false]
    exact ⟨trivial, L.finish hj he hsame hact _ _⟩

theorem inStep_nack (L : Lockstep n b s) (w id : String) {r : Time} (hr : Instant r)
    (reason : String) :
    InStep n (Memory.exec b ⟨n * millisecond, .nack w id r reason⟩)
      (Redis.run ttl s n (.nack w id r reason)) := by
  simp only [Memory.exec, Redis.run, Redis.nack]
  rw [Broker.nack, Redis.Script.nack, if_neg (show ¬ b.closed = true by rw [L.opened]; decide)]
  rcases L.fence w id with ⟨hmem, hredis⟩ | ⟨state, owner, hmem, hredis⟩ |
    ⟨j, e, hj, he, hsame, hact, hmem, hredis⟩
  · rw [hmem, hredis]
    exact L.refused _
  · rw [hmem, hredis]
    exact L.refused _
  · rw [hmem, hredis]
    obtain rfl := L.redis.keyed id e he
    have hspent := hsame.spent
    rcases hex : j.exhausted with _ | _
    · rw [hex] at hspent
      simp only [hspent, show Job.exhausted { j with owner := "", lastErr := reason } =
        false from hex, Bool.false_eq_true, if_false]
      exact ⟨trivial, L.retryLater hj he hsame hact hex hr reason⟩
    · rw [hex] at hspent
      simp only [hspent, show Job.exhausted { j with owner := "", lastErr := reason } =
        true from hex, if_true]
      exact ⟨trivial, L.bury hj he hsame hact n reason⟩

theorem inStep_kill (L : Lockstep n b s) (w id reason : String) :
    InStep n (Memory.exec b ⟨n * millisecond, .kill w id reason⟩)
      (Redis.run ttl s n (.kill w id reason)) := by
  simp only [Memory.exec, Redis.run, Redis.kill]
  rw [Broker.kill, Redis.Script.kill, if_neg (show ¬ b.closed = true by rw [L.opened]; decide)]
  rcases L.fence w id with ⟨hmem, hredis⟩ | ⟨state, owner, hmem, hredis⟩ |
    ⟨j, e, hj, he, hsame, hact, hmem, hredis⟩
  · rw [hmem, hredis]
    exact L.refused _
  · rw [hmem, hredis]
    exact L.refused _
  · rw [hmem, hredis]
    obtain rfl := L.redis.keyed id e he
    exact ⟨trivial, L.bury hj he hsame hact n reason⟩

theorem Lockstep.extendLoop {d : ℤ} (hd : 0 ≤ d) (w : String) {ids : List String} :
    ∀ {b : Broker} {s : Store}, Lockstep n b s →
    (Broker.extendLoop w (timeFromMs d) ids b).1 = (Redis.Script.extend w d ids s).1 ∧
      Lockstep n (Broker.extendLoop w (timeFromMs d) ids b).2
        (Redis.Script.extend w d ids s).2 := by
  induction ids with
  | nil => exact fun L ↦ ⟨rfl, L⟩
  | cons id ids ih =>
    intro b s L
    rw [Broker.extendLoop, Redis.Script.extend]
    rcases L.fence w id with ⟨hmem, hredis⟩ | ⟨state, owner, hmem, hredis⟩ |
      ⟨j, e, hj, he, hsame, hact, hmem, hredis⟩
    · rw [hmem, hredis]
      exact ⟨congrArg (id :: ·) (ih L).1, (ih L).2⟩
    · rw [hmem, hredis]
      exact ⟨congrArg (id :: ·) (ih L).1, (ih L).2⟩
    · rw [hmem, hredis]
      exact ih (L.renew hj he hsame hact hd)

theorem inStep_extend (L : Lockstep n b s) (hn : 0 < n) (w : String) (ids : List String)
    {vt : Duration} (hvt : Whole vt) :
    InStep n (Memory.exec b ⟨n * millisecond, .extend w ids vt⟩)
      (Redis.run ttl s n (.extend w ids vt)) := by
  simp only [Memory.exec, Redis.run]
  rw [Broker.extend, Redis.extend]
  by_cases hpos : vt ≤ 0
  · rw [if_pos hpos, if_pos hpos]
    exact L.refused _
  · rw [if_neg hpos, if_neg hpos, if_neg (show ¬ b.closed = true by rw [L.opened]; decide)]
    by_cases hnil : ids = []
    · rw [if_pos hnil, hnil]
      exact ⟨rfl, L⟩
    · have hpos := not_le.1 hpos
      rw [if_neg hnil, ← timeFromMs_add hn hvt hpos]
      exact L.extendLoop (add_pos hn (hvt.milliseconds_pos hpos)).le w

/-! ### Reap -/

/-- The expired leases of a queue are the same, in the same order. -/
theorem Lockstep.expired (L : Lockstep n b s) (hn : 0 < n) (q : String) :
    Table.keysOf (b.expired (n * millisecond) [q]) =
      Table.keysOf ((s.active q).due (fun _ ↦ true) n) := by
  refine Table.keysOf_due_eq strictMonoOn_timeFromMs (fun p hp ↦ ?_) fun t id ↦ ?_
  · obtain ⟨e, he, -, -, hdeadline⟩ := L.redis.of_lease (Table.mem_due.1 hp).1
    obtain ⟨j, -, hsame⟩ := L.of_hash he
    exact hdeadline ▸ hsame.deadline_nonneg
  · simp only [Table.mem_due, ofLex_toLex, and_true]
    constructor
    · rintro ⟨hlease, hle, hkeep⟩
      obtain ⟨j, hj, hact, rfl⟩ := L.memory.of_lease hlease
      obtain ⟨e, he, hsame⟩ := L.of_job hj
      have hq : j.queue = q := by simpa [Broker.reapable, hj] using hkeep
      refine ⟨e.hash.deadline, ⟨?_, ?_⟩, hsame.deadline.symm⟩
      · rw [← hq, hsame.queue]
        exact L.redis.leased id e he (hsame.state ▸ hact)
      · rw [hsame.deadline] at hle
        exact (timeFromMs_le_iff hn hsame.deadline_nonneg).1 hle
    · rintro ⟨t₀, ⟨hscore, hle⟩, rfl⟩
      obtain ⟨e, he, hact, hq, rfl⟩ := L.redis.of_lease hscore
      obtain ⟨j, hj, hsame⟩ := L.of_hash he
      rw [← hsame.deadline]
      refine ⟨L.memory.leased id j hj (hsame.state.trans hact), ?_, ?_⟩
      · rw [hsame.deadline]
        exact (timeFromMs_le_iff hn hsame.deadline_nonneg).2 hle
      · simp [Broker.reapable, hj, hsame.queue, hq]

/-- The candidates are the same, so the loops take the same steps; the one stops when it has acted
on enough of them, the other was given no more. -/
theorem Lockstep.reapLoop (hn : 0 < n) {q : String} {limit : ℤ} {cs : List (Time ×ₗ String)} :
    ∀ {k : ℕ} {m : ℕ × ℕ} {b : Broker} {s : Store}, Lockstep n b s → (Table.keysOf cs).Nodup →
    (∀ i ∈ Table.keysOf cs, ∃ t, (s.active q).lookup i = some t ∧ t ≤ n) → k = m.1 + m.2 →
    ∃ m' b' s', Broker.reapLoop limit cs k b = (m'.1 + m'.2, b') ∧
      Redis.Script.reapLoop n q ((Table.keysOf cs).take (limit - k).toNat) m s = (m', s') ∧
      Lockstep n b' s' := by
  induction cs with
  | nil =>
    rintro k m b s L - - rfl
    exact ⟨m, b, s, rfl, by rw [Table.keysOf_nil, List.take_nil]; rfl, L⟩
  | cons c cs ih =>
    intro k m b s L hnodup hdue hk
    rw [Broker.reapLoop]
    by_cases hlim : limit ≤ k
    · rw [if_pos hlim, Int.toNat_of_nonpos (by omega), hk]
      exact ⟨m, b, s, rfl, rfl, L⟩
    · rw [Table.keysOf_cons] at hnodup hdue
      rw [List.nodup_cons] at hnodup
      obtain ⟨t, ht, hle⟩ := hdue _ List.mem_cons_self
      obtain ⟨e, he, hact, rfl, rfl⟩ := L.redis.of_lease ht
      obtain ⟨j, hj, hsame⟩ := L.of_hash he
      have hmove := Redis.Store.moves_recover L.redis he hact hle
      have hsucc : (limit - k).toNat = (limit - (k + 1 : ℕ)).toNat + 1 := by omega
      rw [if_neg hlim, hj, Table.keysOf_cons, hsucc, List.take_succ_cons, Redis.Script.reapLoop,
        if_pos (by rw [ht]; rfl)]
      simp only [show (s.zremActive e.hash.queue (ofLex c).2).job (ofLex c).2 = some e from he]
      refine ih (L.recover hn hj he hsame (hsame.state.trans hact) hle) hnodup.2
        (fun i hi ↦ ?_) ?_
      · have hne : i ≠ (ofLex c).2 := fun heq ↦ hnodup.1 (heq ▸ hi)
        rw [hmove.frame.active _ i hne]
        exact hdue i (List.mem_cons_of_mem _ hi)
      · split_ifs
        · omega
        · omega

theorem inStep_reap (L : Lockstep n b s) (hn : 0 < n) (q : String) {limit : ℤ}
    (hreads : Redis.Script.reads limit = true) :
    InStep n (Memory.exec b ⟨n * millisecond, .reap [q] limit⟩)
      (Redis.run ttl s n (.reap q limit)) := by
  simp only [Memory.exec, Redis.run]
  rw [Broker.reap, Redis.reapQueue, Redis.Script.reap, Redis.Script.dueMembers]
  by_cases hlim : limit ≤ 0
  · rw [if_pos hlim, if_pos hlim]
    exact ⟨rfl, L⟩
  · rw [if_neg hlim, if_neg hlim, if_neg (show ¬ b.closed = true by rw [L.opened]; decide),
      if_neg (by simp [hreads])]
    have hkeys := L.expired hn q
    have hloop : ∃ m b' s', Broker.reapLoop limit (b.expired (n * millisecond) [q]) 0 b =
          (m.1 + m.2, b') ∧
        Redis.Script.reapLoop n q
          ((Table.keysOf (b.expired (n * millisecond) [q])).take (limit - (0 : ℕ)).toNat) (0, 0) s =
            (m, s') ∧ Lockstep n b' s' := by
      refine Lockstep.reapLoop hn L (Table.keysOf_due_nodup _ _ _) (fun i hi ↦ ?_) rfl
      rw [hkeys] at hi
      obtain ⟨t, ht, hle, -⟩ := Table.mem_keysOf_due.1 hi
      exact ⟨t, ht, hle⟩
    obtain ⟨m, b', s', hmem, hredis, L'⟩ := hloop
    rw [hkeys, Nat.cast_zero, sub_zero] at hredis
    rw [hmem, hredis]
    exact ⟨rfl, L'⟩

/-! ### Promote -/

/-- The same for one of the two wait sets. -/
theorem Lockstep.promoteLoop (hn : 0 < n) (set : Redis.Script.WaitSet) {limit : ℤ}
    {cs : List (Time ×ₗ String)} :
    ∀ {k : ℕ} {b : Broker} {s : Store}, Lockstep n b s → (Table.keysOf cs).Nodup →
    (∀ i ∈ Table.keysOf cs, ∃ t, (Redis.Script.waitSet s set).lookup i = some t ∧ t ≤ n) →
    ∃ k' b' s', Broker.promoteLoop limit (cs.map fun c ↦ (c, waitSet set)) k b = (k', b') ∧
      Redis.Script.promoteLoop set ((Table.keysOf cs).take (limit - k).toNat) k s = (k', s') ∧
      Lockstep n b' s' := by
  induction cs with
  | nil =>
    intro k b s L _ _
    exact ⟨k, b, s, rfl, by rw [Table.keysOf_nil, List.take_nil]; rfl, L⟩
  | cons c cs ih =>
    intro k b s L hnodup hdue
    rw [List.map_cons, Broker.promoteLoop]
    by_cases hlim : limit ≤ k
    · rw [if_pos hlim, Int.toNat_of_nonpos (by omega)]
      exact ⟨k, b, s, rfl, rfl, L⟩
    · rw [Table.keysOf_cons] at hnodup hdue
      rw [List.nodup_cons] at hnodup
      obtain ⟨t, ht, hle⟩ := hdue _ List.mem_cons_self
      obtain ⟨e, he, -⟩ := L.redis.of_waitSet ht
      obtain ⟨j, hj, hsame⟩ := L.of_hash he
      have hmove := Redis.Store.moves_promote L.redis ht he hle
      have hsucc : (limit - k).toNat = (limit - (k + 1 : ℕ)).toNat + 1 := by omega
      rw [if_neg hlim, hj, Table.keysOf_cons, hsucc, List.take_succ_cons, Redis.Script.promoteLoop,
        if_pos (by rw [ht]; rfl)]
      simp only [Redis.Script.zremWait_job, he]
      refine ih (L.promote hn hj he hsame ht hle) hnodup.2 fun i hi ↦ ?_
      have hne : i ≠ (ofLex c).2 := fun heq ↦ hnodup.1 (heq ▸ hi)
      rw [hmove.frame.wait _ i hne]
      exact hdue i (List.mem_cons_of_mem _ hi)

/-- What is due in the wait set of the in-memory broker. -/
def due (b : Broker) (n : ℤ) (set : Redis.Script.WaitSet) : List (Time ×ₗ String) :=
  (b.waitSet (waitSet set)).due (fun _ ↦ true) (n * millisecond)

/-- With one wait set due, what the in-memory broker promotes comes from that one. -/
theorem dueJobs_eq {set : Redis.Script.WaitSet}
    (hother : ∀ set', set' ≠ set → due b n set' = []) :
    b.dueJobs (n * millisecond) = (due b n set).map fun c ↦ (c, waitSet set) := by
  have hsorted : ((due b n set).map fun c ↦ (c, waitSet set)).Pairwise fun c c' ↦ c.1 ≤ c'.1 :=
    List.pairwise_map.2 (Table.due_pairwise_le _ _ _)
  rw [← hsorted.insertionSort_eq, Broker.dueJobs]
  cases set with
  | delayed =>
    rw [show b.retry.due (fun _ ↦ true) (n * millisecond) = [] from hother .retry (by decide),
      List.map_nil, List.append_nil]
    rfl
  | retry =>
    rw [show b.scheduled.due (fun _ ↦ true) (n * millisecond) = [] from
      hother .delayed (by decide), List.map_nil, List.nil_append]
    rfl

/-- A round of `promote.lua` over a set with nothing due does nothing. -/
theorem promoteSet_eq {limit : ℤ} {set : Redis.Script.WaitSet} {r : ℕ × Store}
    (hnone : Table.keysOf ((Redis.Script.waitSet r.2 set).due (fun _ ↦ true) n) = []) :
    Redis.Script.promoteSet n limit set r = r := by
  rw [Redis.Script.promoteSet, Redis.Script.dueMembers, hnone, List.take_nil]
  exact ite_self r

/-- With one wait set due, `promote.lua` is the loop over that one. -/
theorem promote_eq (hs : s.Located) {limit : ℤ} (hlim : 0 < limit) {set : Redis.Script.WaitSet}
    (hother : ∀ set', set' ≠ set →
      Table.keysOf ((Redis.Script.waitSet s set').due (fun _ ↦ true) n) = []) :
    Redis.Script.promote s n limit =
      Redis.Script.promoteLoop set (Redis.Script.dueMembers (Redis.Script.waitSet s set) n limit)
        0 s := by
  have hround : Redis.Script.promoteSet n limit set (0, s) =
      Redis.Script.promoteLoop set (Redis.Script.dueMembers (Redis.Script.waitSet s set) n limit)
        0 s := by
    rw [Redis.Script.promoteSet]
    dsimp only
    rw [Nat.cast_zero, sub_zero, if_pos hlim]
  rw [Redis.Script.promote]
  cases set with
  | delayed =>
    obtain ⟨-, -, hframe⟩ := Redis.steps_promoteSet hs n limit .delayed 0
    rw [promoteSet_eq, hround]
    rw [hframe .retry (by decide)]
    exact hother .retry (by decide)
  | retry =>
    rw [promoteSet_eq (r := (0, s)) (hother .delayed (by decide)), hround]

theorem inStep_promote (L : Lockstep n b s) (hn : 0 < n) {limit : ℤ}
    (hreads : Redis.Script.reads limit = true)
    (hdue : ∃ set, ∀ set', set' ≠ set → due b n set' = []) :
    InStep n (Memory.exec b ⟨n * millisecond, .promote limit⟩)
      (Redis.run ttl s n (.promote limit)) := by
  obtain ⟨set, hother⟩ := hdue
  simp only [Memory.exec, Redis.run]
  rw [Broker.promote, Redis.promote]
  by_cases hlim : limit ≤ 0
  · rw [if_pos hlim, if_pos hlim]
    exact ⟨rfl, L⟩
  · have hkeys : ∀ set, Table.keysOf (due b n set) =
        Table.keysOf ((Redis.Script.waitSet s set).due (fun _ ↦ true) n) := fun set ↦
      (L.wait set).due hn
    have hother' : ∀ set', set' ≠ set →
        Table.keysOf ((Redis.Script.waitSet s set').due (fun _ ↦ true) n) = [] := by
      intro set' hne
      rw [← hkeys set', hother set' hne]
      rfl
    rw [if_neg hlim, if_neg hlim, if_neg (show ¬ b.closed = true by rw [L.opened]; decide),
      if_neg (by simp [hreads]), promote_eq L.redis (not_le.1 hlim) hother', dueJobs_eq hother]
    obtain ⟨k, b', s', hmem, hredis, L'⟩ : ∃ k b' s',
        Broker.promoteLoop limit ((due b n set).map fun c ↦ (c, waitSet set)) 0 b = (k, b') ∧
        Redis.Script.promoteLoop set
          ((Table.keysOf (due b n set)).take (limit - (0 : ℕ)).toNat) 0 s = (k, s') ∧
        Lockstep n b' s' := by
      refine Lockstep.promoteLoop hn set L (Table.keysOf_due_nodup _ _ _) fun i hi ↦ ?_
      rw [hkeys] at hi
      obtain ⟨t, ht, hle, -⟩ := Table.mem_keysOf_due.1 hi
      exact ⟨t, ht, hle⟩
    rw [hkeys, Nat.cast_zero, sub_zero] at hredis
    rw [Redis.Script.dueMembers, hmem, hredis]
    exact ⟨rfl, L'⟩

/-! ### Runs -/

/-- Two brokers that are given the same requests, with the last time their clocks read and the IDs
jobs were stored under so far. -/
structure Pair where
  clock : ℤ
  used : List String
  memory : Broker
  redis : Store

/-- Two empty brokers. -/
def Pair.new : Pair := ⟨0, [], Memory.new, .empty⟩

variable (cfg : Config)

/-- What the two brokers reply to a request. -/
def replies (p : Pair) (r : Request) : Reply × Reply :=
  ((Memory.exec p.memory r.onMemory).1, (Redis.exec cfg p.redis r.onRedis).1)

/-- Both brokers after a request. -/
def next (p : Pair) (r : Request) : Pair where
  clock := r.now
  used :=
    match (replies cfg p r).1 with
    | .stored j => j.id :: p.used
    | _ => p.used
  memory := (Memory.exec p.memory r.onMemory).2
  redis := (Redis.exec cfg p.redis r.onRedis).2

/-- The two brokers under any sequence of requests. -/
def machine : Machine Pair Request where
  init := .new
  next := next cfg

/-- What an operation has to respect. -/
def Permits (p : Pair) (n : ℤ) : Op → Prop
  | .enqueue newID _ (some j) => Fair newID j ∧ (j.assigned newID).id ∉ p.used
  | .dequeue o => Whole o.visibilityTimeout
  | .nack _ _ r _ => Instant r
  | .extend _ _ vt => Whole vt
  | .reap _ limit => limit ≤ 2 ^ 53
  | .promote limit =>
    limit ≤ 2 ^ 53 ∧ (due p.memory n .delayed = [] ∨ due p.memory n .retry = [])
  | _ => True

/-- What a request has to respect: the clock does not go back and is past the epoch, and the
operation is one on which the brokers are meant to agree. -/
structure Permitted (p : Pair) (r : Request) : Prop where
  clock : p.clock ≤ r.now
  epoch : 0 < r.now
  op : Permits p r.now r.op

/-- **The simulation relation.** -/
structure Simulates (p : Pair) : Prop where
  lockstep : Lockstep p.clock p.memory p.redis
  used : ∀ id, p.memory.jobs.lookup id ≠ none → id ∈ p.used

variable {cfg} {p : Pair} {r : Request}

theorem simulates_new : Simulates .new where
  lockstep :=
    { opened := rfl
      memory := Memory.located_new
      redis := Redis.located_empty
      jobs := fun id ↦ by
        rw [show Pair.new.memory.jobs.lookup id = none from AList.lookup_empty id]
        exact .none
      ready := rfl
      scheduled := fun id ↦ ⟨rfl, fun _ h ↦ nomatch h⟩
      retry := fun id ↦ ⟨rfl, fun _ h ↦ nomatch h⟩
      unique := fun key hkey n _ ↦ if_neg hkey }
  used := fun id hid ↦ absurd (AList.lookup_empty id) hid

/-- Expiry takes no job away: a completed one was deleted at once. -/
theorem Lockstep.live {m : ℤ} (L : Lockstep n b s) (hm : n ≤ m) {visible : ℤ → ℤ → Bool}
    (hvisible : ∀ now t, visible now t = decide (now < t)) :
    Lockstep m b (s.live visible m) where
  opened := L.opened
  memory := L.memory
  redis := (L.redis.live visible m).1
  jobs := fun id ↦ by
    rcases L.redis.live_job visible m id with hjob | ⟨-, e, he, hdone⟩
    · rw [hjob]
      exact L.jobs id
    · obtain ⟨j, hj, hsame⟩ := L.of_hash he
      have hhoused := L.memory.housed id j hj
      rw [Memory.place, hsame.state, hdone] at hhoused
      cases hhoused
  ready := L.ready
  scheduled := L.scheduled
  retry := L.retry
  unique := fun key hkey k hk ↦ by
    rw [L.unique key hkey k (hm.trans hk), holder, holder]
    rcases hu : s.unique key with _ | u
    · simp [Redis.Store.live, hu]
    · by_cases hlt : m < u.expireAt
      · simp [Redis.Store.live, hu, hvisible, hlt, Option.filter]
      · have hlt' : ¬ k < u.expireAt := fun h ↦ hlt (hk.trans_lt h)
        simp [Redis.Store.live, hu, hvisible, hlt, hlt', Option.filter]

/-- **One request.** -/
theorem Simulates.inStep (hvisible : ∀ now t, cfg.visible now t = decide (now < t))
    (hkeep : cfg.completedTTL = 0) (hp : Simulates p) (hr : Permitted p r) :
    InStep r.now (Memory.exec p.memory r.onMemory) (Redis.exec cfg p.redis r.onRedis) := by
  obtain ⟨n, op⟩ := r
  have L : Lockstep n p.memory (p.redis.live cfg.visible n) :=
    hp.lockstep.live hr.clock hvisible
  have hn : 0 < n := hr.epoch
  have hop : Permits p n op := hr.op
  rw [Redis.exec, hkeep]
  show InStep n (Memory.exec p.memory ⟨n * millisecond, op.onMemory⟩)
    (Redis.run 0 (p.redis.live cfg.visible n) n op.onRedis)
  cases op with
  | enqueue newID wall o =>
    refine inStep_enqueue L hn wall (fun key u hu ↦ ?_) ?_
    · obtain ⟨-, hu⟩ := Option.filter_eq_some_iff.1 hu
      rw [hvisible] at hu
      exact of_decide_eq_true hu
    · rintro j rfl
      exact ⟨hop.1, by_contra fun hne ↦ hop.2 (hp.used _ hne)⟩
  | dequeue o => exact inStep_dequeue L hn hop
  | ack w i => exact inStep_ack L w i
  | nack w i t reason => exact inStep_nack L w i hop reason
  | kill w i reason => exact inStep_kill L w i reason
  | extend w ids vt => exact inStep_extend L hn w ids hop
  | reap q limit => exact inStep_reap L hn q (Redis.Script.reads_of_le hop)
  | promote limit =>
    refine inStep_promote L hn (Redis.Script.reads_of_le hop.1) ?_
    rcases hop.2 with hnone | hnone
    · exact ⟨.retry, fun set hne ↦ by cases set <;> first | exact hnone | exact absurd rfl hne⟩
    · exact ⟨.delayed, fun set hne ↦ by cases set <;> first | exact hnone | exact absurd rfl hne⟩

/-- The request is safe for the in-memory broker: a new ID is not in use. -/
theorem Simulates.safe (hp : Simulates p) (hr : Permitted p r) :
    Memory.Safe p.memory r.onMemory.op := by
  obtain ⟨n, op⟩ := r
  have hop : Permits p n op := hr.op
  rcases op with ⟨newID, wall, _ | j⟩ | _
  case enqueue.some => exact by_contra fun hne ↦ hop.2 (hp.used _ hne)
  all_goals trivial

/-- **The relation is kept**, and the outcomes agree. -/
theorem Simulates.step (hvisible : ∀ now t, cfg.visible now t = decide (now < t))
    (hkeep : cfg.completedTTL = 0) (hp : Simulates p) (hr : Permitted p r) :
    Agrees (replies cfg p r).1 (replies cfg p r).2 ∧ Simulates (next cfg p r) := by
  obtain ⟨hagree, hlockstep⟩ := hp.inStep hvisible hkeep hr
  have hsteps := Memory.steps_exec hp.lockstep.memory (hp.safe hr)
  refine ⟨hagree, hlockstep, fun id hid ↦ ?_⟩
  by_contra hunused
  have hold : id ∉ p.used := fun hmem ↦ hunused <| by
    rw [next]
    dsimp only
    split
    · exact List.mem_cons_of_mem _ hmem
    · exact hmem
  have hlife : p.memory.life id = none :=
    Memory.Broker.life_eq_none (by_contra fun hne ↦ hold (hp.used id hne))
  have hgone := hsteps.path.absent hlife fun l hmem ↦ hunused <| by
    obtain ⟨_, _, j, -, hreply, hid, -⟩ := Memory.mem_events_iff.1 hmem
    have hstored : (replies cfg p r).1 = .stored j := hreply
    rw [next]
    simp only [hstored, ← hid]
    exact List.mem_cons_self
  obtain ⟨j, hj⟩ := Option.ne_none_iff_exists'.1 hid
  have hlives := Memory.Broker.life_eq_some hj
  rw [show (next cfg p r).memory.life id = none from hgone] at hlives
  cases hlives

/-- A broker that keeps no completed jobs. -/
def keepNone : Config := { Config.default with completedTTL := 0 }

theorem Simulates.next (hp : Simulates p) (hr : Permitted p r) : Simulates (next keepNone p r) :=
  (hp.step (fun _ _ ↦ rfl) rfl hr).2

/-- A plain job is fair. -/
theorem fair_plain {newID : String} (hne : newID ≠ "") (queue : String) {t : Time}
    (ht : Instant t) : Fair newID { Job.plain queue "t" 3 with runAt := t } :=
  ⟨hne, rfl, rfl, rfl, rfl, rfl, rfl, rfl, ht, ⟨0, rfl⟩, show (3 : ℤ) < 2 ^ 53 by decide⟩

end TaskQueue.Conformance
