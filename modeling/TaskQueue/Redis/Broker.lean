import TaskQueue.Redis.Scripts

/-!
# The Redis broker

The Go side of `internal/rdb`: what each operation checks before it runs its script, the arguments
it builds, and how it reads the reply. The store is the one the script sees.

An operation is one script execution, and there is one of them in every definition here. `Reap` is
the exception in the source, where it runs its script once for each queue; other clients can come in
between, so `reapQueue` is one round of that loop and a `Reap` over many queues is many of these.
`reap` is the loop with nobody in between.
The commands that fail because Redis or the network does are not modelled: a failed command either
ran or did not. A command that Redis refuses for its arguments is: it is the limit of `Reap` and
`Promote` that Redis may be unable to read (`Script.reads`).
-/

namespace TaskQueue.Redis

/-- What a broker is built with, and when Redis stops showing a key. -/
structure Config where
  completedTTL : Duration
  visible : ℤ → ℤ → Bool

/-- The default configuration, with keys visible strictly before their expiry. -/
def Config.default : Config where
  completedTTL := hour
  visible now expireAt := decide (now < expireAt)

theorem expires_default : Expires Config.default.visible := by
  intro now now' expireAt hle hlate
  exact decide_eq_true (hle.trans_lt (of_decide_eq_true hlate))

/-! ### Times -/

/-- `time.Time.UnixMilli` -/
def unixMilli (t : Time) : ℤ := t / millisecond

/-- `time.Duration.Milliseconds`, which truncates. -/
def milliseconds (d : Duration) : ℤ := d.tdiv millisecond

/-- `msFromTime`: the zero time is 0. -/
def msFromTime (t : Time) : ℤ := if t = zeroTime then 0 else unixMilli t

/-- `timeFromMs` -/
def timeFromMs (ms : ℤ) : Time := if ms = 0 then zeroTime else ms * millisecond

/-! ### The hot path -/

/-- `decodeJob`. The unique window is not kept in Redis. -/
def decodeJob (h : Hash) : Except Err Job :=
  if h.id = "" then .error (.jobNotFound "job hash has no id")
  else
    .ok {
      id := h.id
      queue := h.queue
      type := h.type
      payload := h.payload
      attempt := h.attempt
      maxAttempts := h.maxAttempts
      recoveries := h.recoveries
      state := h.state
      owner := h.owner
      uniqueKey := h.uniqueKey
      uniqueTTL := 0
      lastErr := h.lastErr
      enqueuedAt := timeFromMs h.enqueuedAt
      runAt := timeFromMs h.runAt
      startedAt := timeFromMs h.startedAt
      deadline := timeFromMs h.deadline }

/-- The arguments `Enqueue` builds for its script, as the hash the script writes. -/
def jobHash (now : ℤ) (j : Job) : Hash :=
  Script.newHash now j.id j.queue j.type j.payload j.maxAttempts (msFromTime j.runAt) j.uniqueKey

/-- The unique window `Enqueue` passes; 0 turns the unique check off. -/
def uniqueTTL (j : Job) : ℤ := if j.uniqueKey = "" then 0 else milliseconds j.uniqueWindow

/-- `Enqueue`. `wall` is the client's own clock, which only the state mirrored into the caller's job
depends on. -/
def enqueue (s : Store) (now : ℤ) (newID : String) (wall : Time) :
    Option Job → Except Err Job × Store
  | none => (.error (.invalidTask "nil job"), s)
  | some j =>
    if j.queue = "" then (.error (.invalidTask "job has no queue"), s)
    else if j.type = "" then (.error (.invalidTask "job has no type"), s)
    else
      let j := j.assigned newID
      match Script.enqueue s now (jobHash now j) (uniqueTTL j) with
      | (.error existing, s) => (.error (.duplicate j.uniqueKey existing), s)
      | (.ok _, s) =>
        (.ok { j with
          state := if j.runAt ≠ zeroTime ∧ wall < j.runAt then .scheduled else .pending }, s)

/-- `Dequeue`, with the hash of the job it claimed beside the job it makes of it. -/
def claimNext (s : Store) (now : ℤ) (o : ClaimOpts) : Except Err Hash × Store :=
  if o.workerID = "" then (.error (.invalidTask "empty worker ID"), s)
  else if o.visibilityTimeout ≤ 0 then
    (.error (.invalidTask "visibility timeout must be positive"), s)
  else if o.queues = [] then (.error .noJob, s)
  else
    match Script.dequeue now o.workerID (milliseconds o.visibilityTimeout) o.queues s with
    | (none, s) => (.error .noJob, s)
    | (some h, s) => (.ok h, s)

/-- `Dequeue` -/
def dequeue (s : Store) (now : ℤ) (o : ClaimOpts) : Except Err Job × Store :=
  ((claimNext s now o).1.bind decodeJob, (claimNext s now o).2)

/-- `fenceError` -/
def fenceError (jobID workerID : String) : Except Script.Refusal Unit → Except Err Unit
  | .ok _ => .ok ()
  | .error .notfound => .error (.jobNotFound jobID)
  | .error (.lease state owner) => .error (.leaseLost jobID state owner workerID)

/-- `Ack` -/
def ack (s : Store) (now : ℤ) (completedTTL : Duration) (workerID jobID : String) :
    Except Err Unit × Store :=
  (Script.ack s now workerID jobID (milliseconds completedTTL)).map (fenceError jobID workerID) id

/-- `Nack` -/
def nack (s : Store) (now : ℤ) (workerID jobID : String) (retryAt : Time) (reason : String) :
    Except Err Unit × Store :=
  (Script.nack s now workerID jobID (msFromTime retryAt) reason).map (fenceError jobID workerID) id

/-- `Kill` -/
def kill (s : Store) (now : ℤ) (workerID jobID reason : String) : Except Err Unit × Store :=
  (Script.kill s now workerID jobID reason).map (fenceError jobID workerID) id

/-- `Extend` -/
def extend (s : Store) (now : ℤ) (workerID : String) (jobIDs : List String) (vt : Duration) :
    Except Err (List String) × Store :=
  if vt ≤ 0 then (.error (.invalidTask "visibility timeout must be positive"), s)
  else if jobIDs = [] then (.ok [], s)
  else (Script.extend workerID (now + milliseconds vt) jobIDs s).map .ok id

/-! ### Maintenance -/

/-- One round of `Reap`: the jobs recovered and dead-lettered in one queue, counted together. A
limit that Redis does not read makes the script fail before it has moved anything. -/
def reapQueue (s : Store) (now : ℤ) (q : String) (limit : ℤ) : Except Err ℕ × Store :=
  if limit ≤ 0 then (.ok 0, s)
  else if !Script.reads limit then (.error (.notInteger ("reap queue " ++ q)), s)
  else (Script.reap s now q limit).map (fun n ↦ .ok (n.1 + n.2)) id

/-- The loop of `Reap`, with the number of jobs acted on so far. -/
def reapQueues (now limit : ℤ) : List String → ℕ → Store → Except Err ℕ × Store
  | [], total, s => (.ok total, s)
  | q :: queues, total, s =>
    match reapQueue s now q limit with
    | (.error e, s) => (.error e, s)
    | (.ok n, s) => reapQueues now limit queues (total + n) s

/-- `Reap`, with the script running at the same time for each queue. -/
def reap (s : Store) (now : ℤ) (queues : List String) (limit : ℤ) : Except Err ℕ × Store :=
  if limit ≤ 0 then (.ok 0, s) else reapQueues now limit queues 0 s

/-- `Promote` -/
def promote (s : Store) (now limit : ℤ) : Except Err ℕ × Store :=
  if limit ≤ 0 then (.ok 0, s)
  else if !Script.reads limit then (.error (.notInteger "promote"), s)
  else (Script.promote s now limit).map .ok id

/-! ### The cron store -/

/-- `ScheduleCronIfAbsent`: `ZADD NX`. The score is a `float64`, which holds the milliseconds up to
`2 ^ 53` exactly. -/
def scheduleCronIfAbsent (s : Store) (id : String) (fireAt : Time) : Except Err Bool × Store :=
  if id = "" then (.error (.invalidTask "cron entry has no ID"), s)
  else if (s.cron.lookup id).isSome then (.ok false, s)
  else (.ok true, { s with cron := s.cron.insert id (unixMilli fireAt) })

/-- `DueCron`, at the server time it read. -/
def dueCron (s : Store) (now limit : ℤ) : List DueCronEntry :=
  if limit ≤ 0 then []
  else
    ((s.cron.due (fun _ ↦ true) now).take limit.toNat).map
      fun c ↦ ⟨(ofLex c).2, (ofLex c).1 * millisecond⟩

/-- `ClaimCron` -/
def claimCron (s : Store) (entryID : String) (firedAt nextAt : Time) : Except Err Bool × Store :=
  if entryID = "" then (.error (.invalidTask "cron entry has no ID"), s)
  else (Script.cronClaim s entryID (unixMilli firedAt) (unixMilli nextAt)).map .ok id

/-- `RemoveCron` -/
def removeCron (s : Store) (id : String) : Store := { s with cron := s.cron.erase id }

end TaskQueue.Redis
