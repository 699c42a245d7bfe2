import TaskQueue.Data.Table
import TaskQueue.Job

/-!
# What brokers are asked and what they answer

The argument and result records of `broker.go` and `cron.go`, and one type of replies for all the
operations of both brokers.
-/

namespace TaskQueue

/-- The arguments of one `Dequeue`. -/
structure ClaimOpts where
  workerID : String
  queues : List String
  visibilityTimeout : Duration
  deriving DecidableEq

/-- A worker's self-reported identity and load. -/
structure WorkerInfo where
  id : String
  host : String
  pid : ℤ
  queues : List String
  concurrency : ℤ
  inFlight : ℤ
  startedAt : Time
  lastBeat : Time
  deriving DecidableEq

/-- A schedule whose next fire time has arrived. -/
structure DueCronEntry where
  id : String
  fireAt : Time
  deriving DecidableEq

/-- The depth of one queue, by state. -/
structure QueueStats where
  queue : String
  pending : ℤ
  active : ℤ
  scheduled : ℤ
  retry : ℤ

/-- A snapshot across every queue the broker knows about. -/
structure Stats where
  queues : Table String QueueStats
  dead : ℤ
  processed : ℤ
  failed : ℤ
  workers : ℤ

/-- The result of a call: an error, or what the operation returns with a nil error. -/
inductive Reply
  | failed (e : Err)
  /-- `Ack`, `Nack`, `Kill`, `Heartbeat`, `ReleaseLease`, `RemoveCron`, `Close`. -/
  | done
  /-- `Enqueue`, with the caller's job as the call leaves it. -/
  | stored (j : Job)
  /-- `Dequeue`. -/
  | claimed (j : Job)
  /-- `Extend`: the IDs whose lease was lost. -/
  | lost (ids : List String)
  /-- `Reap`, `Promote`, `RetryDead`, `PurgeDead`. -/
  | count (n : ℕ)
  /-- `AcquireLease`, `ScheduleCronIfAbsent`, `ClaimCron`. -/
  | won (yes : Bool)
  /-- `DueCron`. -/
  | due (entries : List DueCronEntry)
  /-- `ListDead`. -/
  | deadJobs (jobs : List Job)
  /-- `Stats`. -/
  | snapshot (s : Stats)
  /-- `Workers`. -/
  | workers (ws : List WorkerInfo)

/-- The reply made of a result. -/
def Reply.of {α : Type} (f : α → Reply) : Except Err α → Reply
  | .ok a => f a
  | .error e => .failed e

end TaskQueue
