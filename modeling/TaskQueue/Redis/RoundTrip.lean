import TaskQueue.Redis.Lua
import TaskQueue.Redis.Machine

/-!
# One round trip

The Go side of `internal/rdb` down to the bytes: each operation builds the keys and the arguments of
its script, runs it against the keyspace, and takes the reply apart. `TaskQueue.Redis.Broker` says
what the operations do; here is how. `Slice` and `Int` of the Redis client are where a reply of the
wrong shape is noticed, and the operations check shapes again after them, so there are failures here
(`Fault`) that the operations of `TaskQueue.Redis.Broker` do not have: Redis raised an error, or the
reply makes no sense.

All brokers that share a Redis see one keyspace. A broker has a **namespace** of its own, which
every key it passes starts with.
-/

namespace TaskQueue.Redis

namespace Wire

open Bulk Keyspace
open Lua (Item Answer)

/-! ### Replies -/

/-- What the Redis client reports instead of a reply. -/
inductive ReplyError
  | script (e : Keyspace.Error)
  /-- `redis.Nil` -/
  | nil
  | unexpectedType
  deriving DecidableEq

/-- `Cmd.Slice` -/
def slice : Except Keyspace.Error Answer → Except ReplyError (List Item)
  | .error e => .error (.script e)
  | .ok .nil => .error .nil
  | .ok (.int _) => .error .unexpectedType
  | .ok (.array l) => .ok l

/-- `Cmd.Int` -/
def int : Except Keyspace.Error Answer → Except ReplyError ℤ
  | .error e => .error (.script e)
  | .ok .nil => .error .nil
  | .ok (.int n) => .ok n
  | .ok (.array _) => .error .unexpectedType

/-- `toInt64` -/
def toInt64 : Item → ℤ
  | .int n => n
  | .bulk b => int64 b

/-- `s, _ = res[i].(string)`, with a value for an array that is too short. -/
def stringAt (res : List Item) (i : ℕ) (short : String) : String :=
  match res[i]? with
  | none => short
  | some x => text (x.string?.getD [])

/-- Why an operation failed beyond the errors it is documented with. -/
inductive Fault
  /-- "taskq/rdb: ...: %w", with the operation and what it was about. -/
  | redis (operation about : String) (e : ReplyError)
  /-- "empty enqueue reply for job ..." and "empty script reply for job ..." -/
  | emptyReply (jobID : String)
  /-- "job ... rejected: ..." -/
  | rejected (jobID reason : String)
  /-- "malformed job hash: ... fields" -/
  | malformedJob (fields : ℕ)
  /-- "malformed reap reply for queue ..." -/
  | malformedReap (queue : String)
  deriving DecidableEq

/-! ### Jobs -/

section Jobs

variable (ns : String) (micros : ℤ) (K : Keyspace)

/-- The keys of `enqueue.lua`. -/
def enqueueKeys (j : Job) : List Bulk :=
  [ofString (kJob ns j.id),
    ofString (kQueue ns j.queue),
    ofString (kDelayed ns),
    ofString (kQueues ns),
    ofString (kUnique ns (if j.uniqueKey = "" then "__none__" else j.uniqueKey))]

/-- How `Enqueue` reads the reply. -/
def enqueueReply (wall : Time) (j : Job) : Except ReplyError (List Item) → Except Fault Reply
  | .error e => .error (.redis "enqueue" j.id e)
  | .ok [] => .error (.emptyReply j.id)
  | .ok (x :: rest) =>
    if toInt64 x = 0 then
      .ok (.failed (.duplicate j.uniqueKey (stringAt (x :: rest) 1 "")))
    else
      .ok (.stored { j with
        state := if j.runAt ≠ zeroTime ∧ wall < j.runAt then .scheduled else .pending })

/-- `Enqueue` -/
def enqueue (newID : String) (wall : Time) : Option Job → Except Fault Reply × Keyspace
  | none => (.ok (.failed (.invalidTask "nil job")), K)
  | some j =>
    if j.queue = "" then (.ok (.failed (.invalidTask "job has no queue")), K)
    else if j.type = "" then (.ok (.failed (.invalidTask "job has no type")), K)
    else
      let j := j.assigned newID
      ((Lua.enqueue micros (enqueueKeys ns j) (enqueueArgs j)).run K).map
        (fun res ↦ enqueueReply wall j (slice res)) id

/-- The keys of `dequeue.lua`, a pair for each queue. -/
def dequeueKeys (queues : List String) : List Bulk :=
  queues.flatMap fun q ↦ [ofString (kQueue ns q), ofString (kActive ns q)]

/-- How `Dequeue` reads the reply. -/
def dequeueReply : Except ReplyError (List Item) → Except Fault Reply
  | .error .nil => .ok (.failed .noJob)
  | .error e => .error (.redis "dequeue" "" e)
  | .ok flat =>
    match decodeJob (flat.map Item.string?) with
    | .ok j => .ok (.claimed j)
    | .error .noID => .ok (.failed (.jobNotFound "job hash has no id"))
    | .error (.malformed n) => .error (.malformedJob n)

/-- `Dequeue` -/
def dequeue (listing : Listing) (o : ClaimOpts) : Except Fault Reply × Keyspace :=
  if o.workerID = "" then (.ok (.failed (.invalidTask "empty worker ID")), K)
  else if o.visibilityTimeout ≤ 0 then
    (.ok (.failed (.invalidTask "visibility timeout must be positive")), K)
  else if o.queues = [] then (.ok (.failed .noJob), K)
  else
    let argv :=
      [ofString o.workerID, decimal (milliseconds o.visibilityTimeout), ofString (pJob ns)]
    ((Lua.dequeue micros (dequeueKeys ns o.queues) argv listing).run K).map
      (fun res ↦ dequeueReply (slice res)) id

/-- `fenceError` behind `Ack`, `Nack` and `Kill`. -/
def fenceReply (operation jobID workerID : String) :
    Except ReplyError (List Item) → Except Fault Reply
  | .error e => .error (.redis operation jobID e)
  | .ok [] => .error (.emptyReply jobID)
  | .ok (x :: rest) =>
    let res := x :: rest
    if toInt64 x = 1 then .ok .done
    else if stringAt res 1 "" = "notfound" then .ok (.failed (.jobNotFound jobID))
    else if stringAt res 1 "" = "lease" then
      .ok (.failed (.leaseLost jobID (stateOf (stringAt res 2 "?")) (stringAt res 3 "?")
        workerID))
    else .error (.rejected jobID (stringAt res 1 ""))

/-- `Ack` -/
def ack (completedTTL : Duration) (workerID jobID : String) :
    Except Fault Reply × Keyspace :=
  let keys := [ofString (kJob ns jobID), ofString (kProcessed ns)]
  let argv := [ofString workerID, decimal (milliseconds completedTTL), ofString (pActive ns)]
  ((Lua.ack micros keys argv).run K).map
    (fun res ↦ fenceReply "ack" jobID workerID (slice res)) id

/-- `Nack` -/
def nack (workerID jobID : String) (retryAt : Time) (reason : String) :
    Except Fault Reply × Keyspace :=
  let keys :=
    [ofString (kJob ns jobID), ofString (kRetry ns), ofString (kDead ns), ofString (kFailed ns)]
  let argv :=
    [ofString workerID, decimal (msFromTime retryAt), ofString reason, ofString (pActive ns)]
  ((Lua.nack micros keys argv).run K).map
    (fun res ↦ fenceReply "nack" jobID workerID (slice res)) id

/-- `Kill` -/
def kill (workerID jobID reason : String) : Except Fault Reply × Keyspace :=
  let keys := [ofString (kJob ns jobID), ofString (kDead ns), ofString (kFailed ns)]
  let argv := [ofString workerID, ofString reason, ofString (pActive ns)]
  ((Lua.kill micros keys argv).run K).map
    (fun res ↦ fenceReply "kill" jobID workerID (slice res)) id

/-- How `Extend` reads the reply. -/
def extendReply : Except ReplyError (List Item) → Except Fault Reply
  | .error e => .error (.redis "extend" "" e)
  | .ok res => .ok (.lost ((res.filterMap Item.string?).map text))

/-- `Extend` -/
def extend (workerID : String) (jobIDs : List String) (vt : Duration) :
    Except Fault Reply × Keyspace :=
  if vt ≤ 0 then (.ok (.failed (.invalidTask "visibility timeout must be positive")), K)
  else if jobIDs = [] then (.ok (.lost []), K)
  else
    let argv :=
      [ofString workerID, decimal (milliseconds vt), ofString (pJob ns), ofString (pActive ns)] ++
        jobIDs.map ofString
    ((Lua.extend micros argv).run K).map (fun res ↦ extendReply (slice res)) id

/-! ### Maintenance -/

/-- How `Reap` reads a reply, about one queue. -/
def reapReply (q : String) : Except ReplyError (List Item) → Except Fault Reply
  | .error e => .error (.redis "reap queue" q e)
  | .ok (recovered :: dead :: _) => .ok (.count (toInt64 recovered + toInt64 dead).toNat)
  | .ok _ => .error (.malformedReap q)

/-- One round of `Reap`. -/
def reap (q : String) (limit : ℤ) : Except Fault Reply × Keyspace :=
  if limit ≤ 0 then (.ok (.count 0), K)
  else
    let keys :=
      [ofString (kActive ns q), ofString (kDead ns), ofString (kQueue ns q), ofString (kFailed ns)]
    ((Lua.reap micros keys [decimal limit, ofString (pJob ns)]).run K).map
      (fun res ↦ reapReply q (slice res)) id

/-- How `Promote` reads the reply. -/
def promoteReply : Except ReplyError ℤ → Except Fault Reply
  | .error e => .error (.redis "promote" "" e)
  | .ok n => .ok (.count n.toNat)

/-- `Promote` -/
def promote (limit : ℤ) : Except Fault Reply × Keyspace :=
  if limit ≤ 0 then (.ok (.count 0), K)
  else
    let keys := [ofString (kDelayed ns), ofString (kRetry ns)]
    let argv := [decimal limit, ofString (pJob ns), ofString (pQueue ns)]
    ((Lua.promote micros keys argv).run K).map (fun res ↦ promoteReply (int res)) id

/-- The arguments of `heartbeat.lua`. -/
def heartbeatArgs (w : WorkerInfo) (ttl : Duration) : List Bulk :=
  [ofString w.id,
    decimal (milliseconds ttl),
    ofString w.host,
    decimal w.pid,
    ofString (String.intercalate "," w.queues),
    decimal w.concurrency,
    decimal w.inFlight,
    decimal (msFromTime w.startedAt)]

/-- `Heartbeat`, which only looks at the error. -/
def heartbeat (w : WorkerInfo) (ttl : Duration) :
    Except Fault (Except Err Unit) × Keyspace :=
  if w.id = "" then (.ok (.error (.invalidTask "empty worker ID")), K)
  else if ttl ≤ 0 then (.ok (.error (.invalidTask "heartbeat ttl must be positive")), K)
  else
    let keys := [ofString (kWorkers ns), ofString (kWorker ns w.id)]
    ((Lua.heartbeat micros keys (heartbeatArgs w ttl)).run K).map
      (fun
        | .error e => .error (.redis "heartbeat" w.id (.script e))
        | .ok _ => .ok (.ok ())) id

/-- `AcquireLease` -/
def acquireLease (name owner : String) (ttl : Duration) :
    Except LeaseError Bool × Keyspace :=
  if name = "" ∨ owner = "" then
    (.error (.invalid (.invalidTask "lease name and owner must be non-empty")), K)
  else if ttl ≤ 0 then (.error (.invalid (.invalidTask "lease ttl must be positive")), K)
  else
    let argv := [ofString owner, decimal (milliseconds ttl)]
    ((Lua.leaseAcquire micros [ofString (kLease ns name)] argv).run K).map
      (fun res ↦ ((int res).mapError fun _ ↦ LeaseError.redis name).map (· == 1)) id

/-- `ReleaseLease` -/
def releaseLease (name owner : String) : Except LeaseError Unit × Keyspace :=
  if name = "" ∨ owner = "" then
    (.error (.invalid (.invalidTask "lease name and owner must be non-empty")), K)
  else
    ((Lua.leaseRelease [ofString (kLease ns name)] [ofString owner]).run K).map
      (fun res ↦ (res.mapError fun _ ↦ LeaseError.redis name).map fun _ ↦ ()) id

/-! ### The cron store -/

/-- What a single command returned, as the reply of an operation. -/
def commandReply {α : Type} (operation about : String) (f : α → Reply) :
    Except Keyspace.Error α → Except Fault Reply
  | .error e => .error (.redis operation about (.script e))
  | .ok a => .ok (f a)

/-- `ScheduleCronIfAbsent`. The client writes the score, a double, as a decimal. -/
def scheduleCronIfAbsent (id : String) (fireAt : Time) : Except Fault Reply × Keyspace :=
  if id = "" then (.ok (.failed (.invalidTask "cron entry has no ID")), K)
  else
    ((zaddNX (ofString (kCron ns)) (luaArg (unixMilli fireAt)) (ofString id)).run K).map
      (commandReply "schedule cron" id .won) fun K ↦ K

/-- `DueCron`, with the server time it read before. -/
def dueCron (limit : ℤ) : Except Fault Reply × Keyspace :=
  if limit ≤ 0 then (.ok (.due []), K)
  else
    ((zrangeWithScores (ofString (kCron ns)) (decimal (micros / 1000)) (decimal limit)).run K).map
      (commandReply "read due cron entries" "" fun l ↦
        .due (l.map fun p ↦ ⟨text (ofLex p).2, (ofLex p).1 * millisecond⟩)) id

/-- `ClaimCron` -/
def claimCron (id : String) (firedAt nextAt : Time) : Except Fault Reply × Keyspace :=
  if id = "" then (.ok (.failed (.invalidTask "cron entry has no ID")), K)
  else
    let argv := [ofString id, decimal (unixMilli firedAt), decimal (unixMilli nextAt)]
    ((Lua.cronClaim [ofString (kCron ns)] argv).run K).map
      (fun res ↦
        match int res with
        | .error e => .error (.redis "claim cron" id e)
        | .ok n => .ok (.won (n == 1))) fun K ↦ K

/-- `RemoveCron` -/
def removeCron (id : String) : Except Fault Reply × Keyspace :=
  ((zrem (ofString (kCron ns)) (ofString id)).run K).map
    (commandReply "remove cron" id fun _ ↦ .done) fun K ↦ K

/-! ### All operations -/

/-- The operation of a call about jobs and schedules. -/
def run (completedTTL : Duration) (listing : Listing) : Op → Except Fault Reply × Keyspace
  | .enqueue newID wall j => enqueue ns micros K newID wall j
  | .dequeue o => dequeue ns micros K listing o
  | .ack w i => ack ns micros K completedTTL w i
  | .nack w i t reason => nack ns micros K w i t reason
  | .kill w i reason => kill ns micros K w i reason
  | .extend w ids vt => extend ns micros K w ids vt
  | .reap q limit => reap ns micros K q limit
  | .promote limit => promote ns micros K limit
  | .scheduleCronIfAbsent i t => scheduleCronIfAbsent ns K i t
  | .dueCron limit => dueCron ns micros K limit
  | .claimCron i t t' => claimCron ns K i t t'
  | .removeCron i => removeCron ns K i

end Jobs

end Wire

/-- Everything a client can ask of a broker. -/
inductive Command
  | job (op : Op)
  | lease (op : LeaseOp)
  | beat (info : WorkerInfo) (ttl : Duration)

/-- And what it is told. -/
inductive Response
  | job (reply : Reply)
  | acquired (result : Except LeaseError Bool)
  | released (result : Except LeaseError Unit)
  | beaten (result : Except Err Unit)

/-- Run a command against the keyspace. -/
def Wire.exec (ns : String) (micros : ℤ) (K : Keyspace) (completedTTL : Duration)
    (listing : Keyspace.Listing) : Command → Except Wire.Fault Response × Keyspace
  | .job op => (Wire.run ns micros K completedTTL listing op).map (Except.map .job) id
  | .lease (.acquire name owner ttl) =>
    (Wire.acquireLease ns micros K name owner ttl).map (fun res ↦ .ok (.acquired res)) id
  | .lease (.release name owner) =>
    (Wire.releaseLease ns K name owner).map (fun res ↦ .ok (.released res)) id
  | .beat info ttl => (Wire.heartbeat ns micros K info ttl).map (Except.map .beaten) id

end TaskQueue.Redis
