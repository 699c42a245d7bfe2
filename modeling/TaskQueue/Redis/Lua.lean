import TaskQueue.Data.Keyspace
import TaskQueue.Redis.Keys
import TaskQueue.Redis.Durations
import TaskQueue.Redis.Wire
import TaskQueue.Redis.Workers

/-!
# The scripts in commands

`internal/rdb/scripts/*.lua` once more, at the level Redis runs them: a script gets byte strings as
`KEYS` and `ARGV`, reads and writes single keys with single commands, and returns a table of numbers
and byte strings. Nothing at this level knows what a job is. A command on a key of another type
raises an error in the middle of the script, and what the script has written until then **stays**;
so do the errors of Lua itself, where a script compares or concatenates a value that is not there.

The server's clock is read in microseconds. It stands still while a script runs, so it is an
argument here, as is the order in which the server lists the fields of a hash.

Each script is as long as its source, with a helper where the source goes on behind a `return`; the
fence that `ack.lua`, `nack.lua` and `kill.lua` all begin with is one definition.
-/

namespace TaskQueue.Redis

namespace Lua

open Bulk Keyspace
open Wire (luaArg)

/-! ### Lua -/

/-- An element of a table that a script returns. -/
inductive Item
  | int (n : ℤ)
  | bulk (b : Bulk)
  deriving DecidableEq

/-- An element that is a string. -/
def Item.string? : Item → Option Bulk
  | .bulk b => some b
  | .int _ => none

/-- What a script returns. -/
inductive Answer
  | nil
  | int (n : ℤ)
  | array (l : List Item)
  deriving DecidableEq

/-- `KEYS[i]` and `ARGV[i]`, which count from 1. -/
def arg (l : List Bulk) (i : ℕ) : Bulk := l.getD (i - 1) []

/-- `tonumber`. Integers are the only numbers there are; the arithmetic on anything else raises an
error. -/
def tonumber (b : Bulk) : Prog ℤ := do return luaNumber (← need (integer? b))

/-- `tostring` of what `HGET` returned; there is no `nil` in a reply, but `false`. -/
def tostring (b : Option Bulk) : Bulk := b.getD (ofString "false")

/-- `now_ms`. A quotient of such a small number is not rounded up to the next integer. -/
def nowMs (micros : ℤ) : Prog ℤ := do
  let seconds ← tonumber (time micros).1
  let rest ← tonumber (time micros).2
  return luaNumber (luaNumber (seconds * 1000) + rest / 1000)

section Scripts

variable (micros : ℤ) (keys argv : List Bulk)

/-- The clock by which keys expire. -/
def mstime : ℤ := micros / 1000

/-! ### enqueue.lua -/

/-- Lines 70 to 74. -/
def enqueuePlace (state : String) (runAt : ℤ) : Prog Unit :=
  if state = "scheduled" then zadd (arg keys 3) (luaArg runAt) (arg argv 1)
  else rpush (arg keys 2) (arg argv 1)

/-- Lines 47 to 79. -/
def enqueueStore (now : ℤ) : Prog Answer := do
  let runAt ← tonumber (arg argv 6)
  let state := if now < runAt then "scheduled" else "pending"
  hset (arg keys 1)
    [("id", arg argv 1),
      ("queue", arg argv 2),
      ("type", arg argv 3),
      ("payload", arg argv 4),
      ("attempt", luaArg 0),
      ("max_attempts", arg argv 5),
      ("recoveries", luaArg 0),
      ("state", ofString state),
      ("owner", ofString ""),
      ("unique_key", arg argv 8),
      ("last_err", ofString ""),
      ("enqueued_at", luaArg now),
      ("run_at", arg argv 6),
      ("started_at", luaArg 0),
      ("deadline", luaArg 0)]
  enqueuePlace keys argv state runAt
  sadd (arg keys 4) (arg argv 2)
  return .array [.int 1]

def enqueue : Prog Answer := do
  let now ← nowMs micros
  let uniqueTTL ← tonumber (arg argv 7)
  if 0 < uniqueTTL then
    if ← setNXPX (mstime micros) (arg keys 5) (arg argv 1) (luaArg uniqueTTL) then
      enqueueStore keys argv now
    else
      let holder ← get (arg keys 5)
      return .array [.int 0, .bulk (holder.getD (ofString ""))]
  else enqueueStore keys argv now

/-! ### dequeue.lua -/

section Dequeue

variable (listing : Listing) (now vt : ℤ) (worker jobPrefix : Bulk)

/-- Lines 46 to 59. -/
def claim (active id : Bulk) : Prog (List Bulk) := do
  let job := jobPrefix ++ id
  let deadline := luaNumber (now + vt)
  hincrby job "attempt" 1
  hset job
    [("state", ofString "active"),
      ("owner", worker),
      ("started_at", luaArg now),
      ("deadline", luaArg deadline)]
  zadd active (luaArg deadline) id
  hgetall listing job

/-- The inner loop; the last argument bounds it. -/
def popJob (ready active : Bulk) : ℕ → Prog (Option (List Bulk))
  | 0 => return none
  | n + 1 => do
    match ← lpop ready with
    | none => return none
    | some id =>
      if ← existsKey (jobPrefix ++ id) then
        let flat ← claim listing now vt worker jobPrefix active id
        return some flat
      else popJob ready active n

/-- The outer loop, over `KEYS` in pairs. -/
def dequeueLoop : List Bulk → Prog Answer
  | ready :: active :: rest => do
    match ← popJob listing now vt worker jobPrefix ready active 20 with
    | some flat => return .array (flat.map .bulk)
    | none => dequeueLoop rest
  | _ => return .nil

end Dequeue

def dequeue (listing : Listing) : Prog Answer := do
  let now ← nowMs micros
  let vt ← tonumber (arg argv 2)
  dequeueLoop listing now vt (arg argv 1) (arg argv 3) keys

/-! ### ack.lua, nack.lua, kill.lua -/

/-- The fence: `body` runs if the worker holds the lease on the job. -/
def fenced (job worker : Bulk) (body : Prog Answer) : Prog Answer := do
  if ← existsKey job then
    let state ← hget job "state"
    let owner ← hget job "owner"
    if state ≠ some (ofString "active") ∨ owner ≠ some worker then
      return .array
        [.int 0, .bulk (ofString "lease"), .bulk (tostring state), .bulk (tostring owner)]
    else body
  else return .array [.int 0, .bulk (ofString "notfound")]

def ack : Prog Answer :=
  let job := arg keys 1
  fenced job (arg argv 1) do
    let id ← need (← hget job "id")
    let queue ← need (← hget job "queue")
    let _ ← zrem (arg argv 3 ++ queue) id
    let _ ← incr (arg keys 2)
    let ttl ← tonumber (arg argv 2)
    if 0 < ttl then
      hset job [("state", ofString "completed"), ("owner", ofString "")]
      pexpire (mstime micros) job (luaArg ttl)
      return .array [.int 1]
    else
      del job
      return .array [.int 1]

def nack : Prog Answer :=
  let job := arg keys 1
  fenced job (arg argv 1) do
    let id ← need (← hget job "id")
    let queue ← need (← hget job "queue")
    let _ ← zrem (arg argv 4 ++ queue) id
    hset job [("last_err", arg argv 3), ("owner", ofString "")]
    let attempt ← tonumber (← need (← hget job "attempt"))
    let maxAttempts ← tonumber (← need (← hget job "max_attempts"))
    if maxAttempts ≤ attempt then
      hset job [("state", ofString "dead")]
      zadd (arg keys 3) (luaArg (← nowMs micros)) id
      let _ ← incr (arg keys 4)
      return .array [.int 1, .bulk (ofString "dead")]
    else
      hset job [("state", ofString "retry")]
      zadd (arg keys 2) (luaArg (← tonumber (arg argv 2))) id
      return .array [.int 1, .bulk (ofString "retry")]

def kill : Prog Answer :=
  let job := arg keys 1
  fenced job (arg argv 1) do
    let id ← need (← hget job "id")
    let queue ← need (← hget job "queue")
    let _ ← zrem (arg argv 3 ++ queue) id
    hset job [("state", ofString "dead"), ("owner", ofString ""), ("last_err", arg argv 2)]
    zadd (arg keys 2) (luaArg (← nowMs micros)) id
    let _ ← incr (arg keys 3)
    return .array [.int 1]

/-! ### extend.lua -/

section Extend

variable (now vt : ℤ) (worker jobPrefix activePrefix : Bulk)

/-- Lines 36 to 48: whether the lease was renewed. -/
def renew (id : Bulk) : Prog Bool := do
  let job := jobPrefix ++ id
  if ← existsKey job then
    let state ← hget job "state"
    let owner ← hget job "owner"
    if state = some (ofString "active") ∧ owner = some worker then
      let deadline := luaNumber (now + vt)
      let queue ← need (← hget job "queue")
      hset job [("deadline", luaArg deadline)]
      zadd (activePrefix ++ queue) (luaArg deadline) id
      return true
    else return false
  else return false

/-- The loop: the IDs whose leases were lost. -/
def extendLoop : List Bulk → Prog (List Bulk)
  | [] => return []
  | id :: ids => do
    let renewed ← renew now vt worker jobPrefix activePrefix id
    let lost ← extendLoop ids
    return if renewed then lost else id :: lost

end Extend

def extend : Prog Answer := do
  let now ← nowMs micros
  let vt ← tonumber (arg argv 2)
  let lost ← extendLoop now vt (arg argv 1) (arg argv 3) (arg argv 4) (argv.drop 4)
  return .array (lost.map .bulk)

/-! ### reap.lua -/

/-- Lines 44 to 66: whether the job was dead-lettered. -/
def recover (now : ℤ) (job id : Bulk) : Prog Bool := do
  hincrby job "recoveries" 1
  hset job [("owner", ofString "")]
  let attempt ← tonumber (← need (← hget job "attempt"))
  let maxAttempts ← tonumber (← need (← hget job "max_attempts"))
  if maxAttempts ≤ attempt then
    hset job
      [("state", ofString "dead"),
        ("last_err", ofString "orphaned: lease expired after " ++
          ofString (Script.luaText attempt) ++ ofString " attempts")]
    zadd (arg keys 2) (luaArg now) id
    let _ ← incr (arg keys 4)
    return true
  else
    hset job [("state", ofString "pending")]
    lpush (arg keys 3) id
    return false

/-- The loop, with the numbers recovered and dead-lettered so far. -/
def reapLoop (now : ℤ) (jobPrefix : Bulk) : List Bulk → ℕ × ℕ → Prog (ℕ × ℕ)
  | [], n => return n
  | id :: ids, n => do
    if ← zrem (arg keys 1) id then
      if ← existsKey (jobPrefix ++ id) then
        if ← recover keys now (jobPrefix ++ id) id then
          reapLoop now jobPrefix ids (n.1, n.2 + 1)
        else reapLoop now jobPrefix ids (n.1 + 1, n.2)
      else reapLoop now jobPrefix ids n
    else reapLoop now jobPrefix ids n

def reap : Prog Answer := do
  let now ← nowMs micros
  let limit ← tonumber (arg argv 1)
  let expired ← zrange (arg keys 1) (luaArg now) (luaArg limit)
  let n ← reapLoop keys now (arg argv 2) expired (0, 0)
  return .array [.int n.1, .int n.2]

/-! ### promote.lua -/

section Promote

variable (jobPrefix queuePrefix : Bulk)

/-- The inner loop, with the number promoted so far. -/
def promoteLoop (zset : Bulk) : List Bulk → ℕ → Prog ℕ
  | [], promoted => return promoted
  | id :: ids, promoted => do
    if ← zrem zset id then
      let job := jobPrefix ++ id
      if ← existsKey job then
        let queue ← need (← hget job "queue")
        hset job [("state", ofString "pending"), ("owner", ofString "")]
        rpush (queuePrefix ++ queue) id
        promoteLoop zset ids (promoted + 1)
      else promoteLoop zset ids promoted
    else promoteLoop zset ids promoted

/-- One round of the outer loop. -/
def promoteSet (now limit : ℤ) (zset : Bulk) (promoted : ℕ) : Prog ℕ :=
  if promoted < limit then do
    let due ← zrange zset (luaArg now) (luaArg (luaNumber (limit - promoted)))
    promoteLoop jobPrefix queuePrefix zset due promoted
  else return promoted

end Promote

def promote : Prog Answer := do
  let now ← nowMs micros
  let limit ← tonumber (arg argv 1)
  let promoted ← promoteSet (arg argv 2) (arg argv 3) now limit (arg keys 1) 0
  let promoted ← promoteSet (arg argv 2) (arg argv 3) now limit (arg keys 2) promoted
  return .int promoted

/-! ### heartbeat.lua -/

def heartbeat : Prog Answer := do
  let now ← nowMs micros
  let ttl ← tonumber (arg argv 2)
  zadd (arg keys 1) (luaArg now) (arg argv 1)
  hset (arg keys 2)
    [("id", arg argv 1),
      ("host", arg argv 3),
      ("pid", arg argv 4),
      ("queues", arg argv 5),
      ("concurrency", arg argv 6),
      ("in_flight", arg argv 7),
      ("started_at", arg argv 8),
      ("last_beat", luaArg now)]
  pexpire (mstime micros) (arg keys 2) (luaArg ttl)
  zremrange (arg keys 1) (luaArg (luaNumber (now - ttl)))
  return .int 1

/-! ### lease_acquire.lua, lease_release.lua -/

def leaseAcquire : Prog Answer := do
  let current ← get (arg keys 1)
  if current = none ∨ current = some (arg argv 1) then
    setPX (mstime micros) (arg keys 1) (arg argv 1) (luaArg (← tonumber (arg argv 2)))
    return .int 1
  else return .int 0

def leaseRelease : Prog Answer := do
  let current ← get (arg keys 1)
  if current = some (arg argv 1) then
    del (arg keys 1)
    return .int 1
  else return .int 0

/-! ### cron_claim.lua -/

def cronClaim : Prog Answer := do
  match ← zscore (arg keys 1) (arg argv 1) with
  | none => return .int 0
  | some score =>
    if (← tonumber score) ≠ (← tonumber (arg argv 2)) then return .int 0
    else
      zadd (arg keys 1) (luaArg (← tonumber (arg argv 3))) (arg argv 1)
      return .int 1

end Scripts

end Lua

end TaskQueue.Redis
