import Mathlib.Data.String.Basic
import Mathlib.Logic.Function.Basic
import TaskQueue.Broker

/-!
# The in-memory broker

`internal/memory/memory.go` and `internal/memory/cron.go`, function for function. Every operation is
guarded by one mutex, so a call is a function from the broker and the time its clock reads to a
result and a broker.

Go's maps are tables; the ready lists are a function because a missing key reads as the empty slice.
Map iteration order never shows: the two loops that range over a map sort what they collected by
time and then by ID before they use it, which is `Table.due`.

The clock and `NewID` are arguments: `now` is what `b.clock.Now()` reads and `newID` what `NewID()`
would return.
-/

namespace TaskQueue.Memory

structure UniqueEntry where
  jobID : String
  expiresAt : Time

structure LeaseEntry where
  owner : String
  expiresAt : Time

structure WorkerEntry where
  info : WorkerInfo
  expiresAt : Time

/-- The state of the in-memory broker. -/
structure Broker where
  closed : Bool
  jobs : Table String Job
  /-- Queue to job IDs; the head is next to claim. -/
  pending : String → List String
  active : Table String Time
  scheduled : Table String Time
  retry : Table String Time
  /-- Oldest first. -/
  dead : List String
  queues : Table String Unit
  cron : Table String Time
  unique : Table String UniqueEntry
  leases : Table String LeaseEntry
  workers : Table String WorkerEntry
  processed : ℤ
  failed : ℤ

/-- `New`: an empty broker. -/
def new : Broker where
  closed := false
  jobs := ∅
  pending := fun _ ↦ []
  active := ∅
  scheduled := ∅
  retry := ∅
  dead := []
  queues := ∅
  cron := ∅
  unique := ∅
  leases := ∅
  workers := ∅
  processed := 0
  failed := 0

namespace Broker

variable (b : Broker) (now : Time)

/-! ### Enqueue -/

/-- The job that holds a unique key at this instant. -/
def uniqueHolder (key : String) : Option String :=
  if key = "" then none
  else (b.unique.lookup key).bind fun e ↦ if now < e.expiresAt then some e.jobID else none

/-- What `Enqueue` fills in on the caller's job. -/
def stamped (newID : String) (j : Job) : Job :=
  { j.assigned newID with enqueuedAt := if j.enqueuedAt = zeroTime then now else j.enqueuedAt }

/-- What `Enqueue` writes once nothing refuses the job: a job with a future `RunAt` waits in the
scheduled set, any other goes to the tail of its ready list. -/
def store (j : Job) : Broker :=
  let b :=
    if now < j.runAt then
      { b with
        scheduled := b.scheduled.insert j.id j.runAt
        jobs := b.jobs.insert j.id { j with owner := "", state := .scheduled } }
    else
      { b with
        pending := Function.update b.pending j.queue (b.pending j.queue ++ [j.id])
        jobs := b.jobs.insert j.id { j with owner := "", state := .pending } }
  { b with
    queues := b.queues.insert j.queue ()
    unique :=
      if j.uniqueKey = "" then b.unique
      else b.unique.insert j.uniqueKey ⟨j.id, now + j.uniqueWindow⟩ }

/-- `Enqueue`. On success the result is the caller's job as the call leaves it. -/
def enqueue (newID : String) : Option Job → Except Err Job × Broker
  | none => (.error (.invalidTask "nil job"), b)
  | some j =>
    if j.queue = "" then (.error (.invalidTask "job has no queue"), b)
    else if j.type = "" then (.error (.invalidTask "job has no type"), b)
    else if b.closed then (.error .closed, b)
    else
      match b.uniqueHolder now j.uniqueKey with
      | some existing => (.error (.duplicate j.uniqueKey existing), b)
      | none =>
        let j := stamped now newID j
        (.ok j, b.store now j)

/-! ### Dequeue -/

/-- The envelope a claim leaves behind. `Attempt` is an `int`; `attempt_inRange` says where the sum
is that of integers. -/
def claimedJob (j : Job) (workerID : String) (vt : Duration) : Job :=
  { j with
    attempt := j.attempt + 1
    state := .active
    owner := workerID
    startedAt := now
    deadline := now + vt }

/-- Claim job `id`, just popped off its ready list. -/
def claim (id : String) (j : Job) (workerID : String) (vt : Duration) : Broker :=
  { b with
    jobs := b.jobs.insert id (claimedJob now j workerID vt)
    active := b.active.insert id (now + vt) }

/-- The head of a ready list is taken off it. -/
def pop (q : String) : Broker :=
  { b with pending := Function.update b.pending q (b.pending q).tail }

/-- The loop of `Dequeue` over the caller's queues. -/
def dequeueFrom (workerID : String) (vt : Duration) : List String → Broker → Except Err Job × Broker
  | [], b => (.error .noJob, b)
  | q :: qs, b =>
    match b.pending q with
    | [] => dequeueFrom workerID vt qs b
    | id :: _ =>
      match b.jobs.lookup id with
      -- a dangling ID is dropped, and the walk goes on with the next queue
      | none => dequeueFrom workerID vt qs (b.pop q)
      | some j => (.ok (claimedJob now j workerID vt), (b.pop q).claim now id j workerID vt)

/-- `Dequeue`. -/
def dequeue (o : ClaimOpts) : Except Err Job × Broker :=
  if o.workerID = "" then (.error (.invalidTask "empty worker ID"), b)
  else if o.visibilityTimeout ≤ 0 then
    (.error (.invalidTask "visibility timeout must be positive"), b)
  else if b.closed then (.error .closed, b)
  else dequeueFrom now o.workerID o.visibilityTimeout o.queues b

/-! ### Settling a claim -/

/-- The fencing check: the job, if `workerID` still holds its lease. -/
def ownedActive (workerID jobID : String) : Except Err Job :=
  match b.jobs.lookup jobID with
  | none => .error (.jobNotFound jobID)
  | some j =>
    if j.state ≠ .active ∨ j.owner ≠ workerID then
      .error (.leaseLost jobID j.state j.owner workerID)
    else .ok j

/-- `Ack`. -/
def ack (workerID jobID : String) : Except Err Unit × Broker :=
  if b.closed then (.error .closed, b)
  else
    match b.ownedActive workerID jobID with
    | .error e => (.error e, b)
    | .ok j =>
      if canTransition j.state .completed = false then
        (.error (.cannotComplete jobID j.state), b)
      else
        (.ok (), { b with
          active := b.active.erase jobID
          jobs := b.jobs.erase jobID
          processed := b.processed + 1 })

/-- Dead-letter a job. The source appends `j.ID`, which is the key the job is stored under. -/
def moveToDeadLocked (id : String) (j : Job) : Broker :=
  { b with
    jobs := b.jobs.insert id { j with state := .dead, owner := "" }
    dead := b.dead ++ [j.id]
    failed := b.failed + 1 }

/-- The lease on a job is dropped. -/
def dropLease (id : String) : Broker := { b with active := b.active.erase id }

/-- `Nack`. The attempt was consumed at claim time, so this is a plain check. -/
def nack (workerID jobID : String) (retryAt : Time) (reason : String) : Except Err Unit × Broker :=
  if b.closed then (.error .closed, b)
  else
    match b.ownedActive workerID jobID with
    | .error e => (.error e, b)
    | .ok j =>
      let j := { j with owner := "", lastErr := reason }
      let b := b.dropLease jobID
      if j.exhausted then (.ok (), b.moveToDeadLocked jobID j)
      else
        (.ok (), { b with
          jobs := b.jobs.insert jobID { j with state := .retry }
          retry := b.retry.insert jobID retryAt })

/-- `Kill`. -/
def kill (workerID jobID reason : String) : Except Err Unit × Broker :=
  if b.closed then (.error .closed, b)
  else
    match b.ownedActive workerID jobID with
    | .error e => (.error e, b)
    | .ok j =>
      (.ok (), (b.dropLease jobID).moveToDeadLocked jobID
        { j with owner := "", lastErr := reason })

/-- A lease is pushed back to `deadline`. -/
def renew (id : String) (j : Job) (deadline : Time) : Broker :=
  { b with
    jobs := b.jobs.insert id { j with deadline := deadline }
    active := b.active.insert id deadline }

/-- The loop of `Extend`: the IDs whose lease the worker no longer holds, and the broker. -/
def extendLoop (workerID : String) (deadline : Time) : List String → Broker → List String × Broker
  | [], b => ([], b)
  | id :: ids, b =>
    match b.ownedActive workerID id with
    | .error _ =>
      let r := extendLoop workerID deadline ids b
      (id :: r.1, r.2)
    | .ok j => extendLoop workerID deadline ids (b.renew id j deadline)

/-- `Extend`. -/
def extend (workerID : String) (jobIDs : List String) (vt : Duration) :
    Except Err (List String) × Broker :=
  if vt ≤ 0 then (.error (.invalidTask "visibility timeout must be positive"), b)
  else if b.closed then (.error .closed, b)
  else
    let r := extendLoop workerID (now + vt) jobIDs b
    (.ok r.1, r.2)

/-! ### Reap -/

/-- The text stored on a job that died with its worker. -/
def orphaned (attempt : ℤ) : String :=
  "orphaned: lease expired after " ++ toString attempt ++ " attempts"

/-- Whether a reap over `queues` looks at job `id`; no queues means every queue. -/
def reapable (queues : List String) (id : String) : Bool :=
  match b.jobs.lookup id with
  | none => false
  | some j => queues.isEmpty || queues.contains j.queue

/-- The expired leases, oldest first and ties broken by ID. -/
def expired (queues : List String) : List (Time ×ₗ String) :=
  b.active.due (b.reapable queues) now

/-- The lease on a job ended by expiry: dead-letter it if its attempts are spent, else put it back
at the head of its ready list. -/
def recover (id : String) (j : Job) : Broker :=
  let j := { j with owner := "", recoveries := j.recoveries + 1 }
  let b := b.dropLease id
  if j.exhausted then b.moveToDeadLocked id { j with lastErr := orphaned j.attempt }
  else
    { b with
      jobs := b.jobs.insert id { j with state := .pending }
      pending := Function.update b.pending j.queue (id :: b.pending j.queue) }

/-- The loop of `Reap`, with the number of jobs acted on so far. -/
def reapLoop (limit : ℤ) : List (Time ×ₗ String) → ℕ → Broker → ℕ × Broker
  | [], n, b => (n, b)
  | c :: cs, n, b =>
    if limit ≤ n then (n, b)
    else
      match b.jobs.lookup (ofLex c).2 with
      -- never taken: a candidate was collected with its job, and the loop deletes none
      | none => reapLoop limit cs n b
      | some j => reapLoop limit cs (n + 1) (b.recover (ofLex c).2 j)

/-- `Reap`. -/
def reap (queues : List String) (limit : ℤ) : Except Err ℕ × Broker :=
  if limit ≤ 0 then (.ok 0, b)
  else if b.closed then (.error .closed, b)
  else
    let r := reapLoop limit (b.expired now queues) 0 b
    (.ok r.1, r.2)

/-! ### Promote -/

/-- The two sets `Promote` drains. -/
inductive WaitSet
  | scheduled
  | retry
  deriving DecidableEq

/-- The due members of the scheduled and retry sets together, soonest first and ties broken by
ID. -/
def dueJobs : List ((Time ×ₗ String) × WaitSet) :=
  (((b.scheduled.due (fun _ ↦ true) now).map fun c ↦ (c, WaitSet.scheduled)) ++
    ((b.retry.due (fun _ ↦ true) now).map fun c ↦ (c, WaitSet.retry))).insertionSort
      fun c c' ↦ c.1 ≤ c'.1

/-- An ID is deleted from one of the two sets. -/
def leaveSet (set : WaitSet) (id : String) : Broker :=
  match set with
  | .scheduled => { b with scheduled := b.scheduled.erase id }
  | .retry => { b with retry := b.retry.erase id }

/-- A due job goes to the tail of its ready list. -/
def promoteJob (set : WaitSet) (id : String) (j : Job) : Broker :=
  let b := b.leaveSet set id
  { b with
    jobs := b.jobs.insert id { j with state := .pending }
    pending := Function.update b.pending j.queue (b.pending j.queue ++ [id]) }

/-- The loop of `Promote`, with the number promoted so far. -/
def promoteLoop (limit : ℤ) : List ((Time ×ₗ String) × WaitSet) → ℕ → Broker → ℕ × Broker
  | [], n, b => (n, b)
  | c :: cs, n, b =>
    if limit ≤ n then (n, b)
    else
      match b.jobs.lookup (ofLex c.1).2 with
      -- a member without a job is dropped and does not count
      | none => promoteLoop limit cs n (b.leaveSet c.2 (ofLex c.1).2)
      | some j => promoteLoop limit cs (n + 1) (b.promoteJob c.2 (ofLex c.1).2 j)

/-- `Promote`. -/
def promote (limit : ℤ) : Except Err ℕ × Broker :=
  if limit ≤ 0 then (.ok 0, b)
  else if b.closed then (.error .closed, b)
  else
    let r := promoteLoop limit (b.dueJobs now) 0 b
    (.ok r.1, r.2)

/-! ### Heartbeats and named leases -/

/-- `Heartbeat`. -/
def heartbeat (w : WorkerInfo) (ttl : Duration) : Except Err Unit × Broker :=
  if w.id = "" then (.error (.invalidTask "empty worker ID"), b)
  else if ttl ≤ 0 then (.error (.invalidTask "heartbeat ttl must be positive"), b)
  else if b.closed then (.error .closed, b)
  else (.ok (), { b with workers := b.workers.insert w.id ⟨{ w with lastBeat := now }, now + ttl⟩ })

/-- `AcquireLease`: free if it never existed or its holder let it lapse; renewal by the current
owner is the same operation. -/
def acquireLease (name owner : String) (ttl : Duration) : Except Err Bool × Broker :=
  if name = "" ∨ owner = "" then
    (.error (.invalidTask "lease name and owner must be non-empty"), b)
  else if ttl ≤ 0 then (.error (.invalidTask "lease ttl must be positive"), b)
  else if b.closed then (.error .closed, b)
  else
    let taken : Bool :=
      match b.leases.lookup name with
      | some e => decide (now < e.expiresAt) && decide (e.owner ≠ owner)
      | none => false
    if taken then (.ok false, b)
    else (.ok true, { b with leases := b.leases.insert name ⟨owner, now + ttl⟩ })

/-- `ReleaseLease`, fenced on the owner. -/
def releaseLease (name owner : String) : Except Err Unit × Broker :=
  if b.closed then (.error .closed, b)
  else
    match b.leases.lookup name with
    | some e =>
      if e.owner = owner then (.ok (), { b with leases := b.leases.erase name }) else (.ok (), b)
    | none => (.ok (), b)

/-! ### Inspection -/

/-- The `bump` of `Stats`: count the job `id` against its queue. -/
def bump (f : QueueStats → QueueStats) (s : Table String QueueStats) (id : String) :
    Table String QueueStats :=
  match b.jobs.lookup id with
  | none => s
  | some j =>
    let qs := (s.lookup j.queue).getD ⟨"", 0, 0, 0, 0⟩
    s.insert j.queue (f { qs with queue := j.queue })

/-- `Stats`. -/
def stats : Except Err Stats :=
  if b.closed then .error .closed
  else
    let s := b.queues.keys.foldl
      (fun s q ↦ s.insert q ⟨q, (b.pending q).length, 0, 0, 0⟩) (∅ : Table String QueueStats)
    let s := b.active.keys.foldl (b.bump fun qs ↦ { qs with active := qs.active + 1 }) s
    let s := b.scheduled.keys.foldl (b.bump fun qs ↦ { qs with scheduled := qs.scheduled + 1 }) s
    let s := b.retry.keys.foldl (b.bump fun qs ↦ { qs with retry := qs.retry + 1 }) s
    .ok {
      queues := s
      dead := b.dead.length
      processed := b.processed
      failed := b.failed
      workers := b.workers.entries.countP fun e ↦ decide (now < e.2.expiresAt) }

/-- The largest capacity that `make` grants a slice of elements of so many bytes: the run time
allocates no more than its 48-bit address space. -/
def maxCap (bytes : ℤ) : ℤ := 2 ^ 48 / bytes

/-- `ListDead`, newest first. It makes room for as many pointers as it may return, before it looks
for any job. -/
def listDead (offset limit : ℤ) : Except Err (List Job) :=
  if offset < 0 ∨ limit ≤ 0 then .ok []
  else if b.closed then .error .closed
  else if maxCap 8 < limit then .error .makeslice
  else
    .ok (((b.dead.reverse.drop offset.toNat).filterMap fun id ↦ b.jobs.lookup id).take limit.toNat)

/-- `Workers`, ordered by ID. -/
def listWorkers : Except Err (List WorkerInfo) :=
  if b.closed then .error .closed
  else
    .ok (((b.workers.entries.filter fun e ↦ decide (now < e.2.expiresAt)).map
      fun e ↦ e.2.info).insertionSort fun w w' ↦ w.id ≤ w'.id)

/-- Resolve an ID filter to concrete dead job IDs; no IDs means every dead job. -/
def selectDeadLocked (ids : List String) : List String :=
  if ids.isEmpty then b.dead else ids.filter fun id ↦ b.dead.contains id

/-- Drop one ID from the dead-letter list. -/
def removeDeadLocked (id : String) : Broker := { b with dead := b.dead.erase id }

/-- A replayed job gets a fresh budget and goes to the tail of its ready list. -/
def replay (id : String) (j : Job) : Broker :=
  { b with
    jobs := b.jobs.insert id
      { j with state := .pending, attempt := 0, recoveries := 0, owner := "" }
    pending := Function.update b.pending j.queue (b.pending j.queue ++ [id]) }.removeDeadLocked id

/-- The loop of `RetryDead`. -/
def retryLoop : List String → ℕ → Broker → ℕ × Broker
  | [], n, b => (n, b)
  | id :: ids, n, b =>
    match b.jobs.lookup id with
    | none => retryLoop ids n b
    | some j => retryLoop ids (n + 1) (b.replay id j)

/-- `RetryDead`. -/
def retryDead (ids : List String) : Except Err ℕ × Broker :=
  if b.closed then (.error .closed, b)
  else
    let r := retryLoop (b.selectDeadLocked ids) 0 b
    (.ok r.1, r.2)

/-- A dead job is removed for good. -/
def purge (id : String) : Broker := { b with jobs := b.jobs.erase id }.removeDeadLocked id

/-- The loop of `PurgeDead`. -/
def purgeLoop : List String → ℕ → Broker → ℕ × Broker
  | [], n, b => (n, b)
  | id :: ids, n, b =>
    match b.jobs.lookup id with
    | none => purgeLoop ids n b
    | some _ => purgeLoop ids (n + 1) (b.purge id)

/-- `PurgeDead`. -/
def purgeDead (ids : List String) : Except Err ℕ × Broker :=
  if b.closed then (.error .closed, b)
  else
    let r := purgeLoop (b.selectDeadLocked ids) 0 b
    (.ok r.1, r.2)

/-- `Close`. -/
def close : Broker := { b with closed := true }

/-! ### The cron store -/

/-- `ScheduleCronIfAbsent`. -/
def scheduleCronIfAbsent (id : String) (fireAt : Time) : Except Err Bool × Broker :=
  if id = "" then (.error (.invalidTask "cron entry has no ID"), b)
  else if b.closed then (.error .closed, b)
  else if (b.cron.lookup id).isSome then (.ok false, b)
  else (.ok true, { b with cron := b.cron.insert id fireAt })

/-- `DueCron`. It makes room for as many entries as it may return, a string and a time each. -/
def dueCron (limit : ℤ) : Except Err (List DueCronEntry) :=
  if limit ≤ 0 then .ok []
  else if b.closed then .error .closed
  else if maxCap 40 < limit then .error .makeslice
  else
    .ok (((b.cron.due (fun _ ↦ true) now).take limit.toNat).map
      fun c ↦ ⟨(ofLex c).2, (ofLex c).1⟩)

/-- `ClaimCron`: a compare-and-set on the expected fire time. -/
def claimCron (id : String) (firedAt nextAt : Time) : Except Err Bool × Broker :=
  if b.closed then (.error .closed, b)
  else if b.cron.lookup id = some firedAt then
    (.ok true, { b with cron := b.cron.insert id nextAt })
  else (.ok false, b)

/-- `RemoveCron`. -/
def removeCron (id : String) : Except Err Unit × Broker :=
  if b.closed then (.error .closed, b) else (.ok (), { b with cron := b.cron.erase id })

end Broker

end TaskQueue.Memory
