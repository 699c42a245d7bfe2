import Mathlib.Data.List.DropRight
import Mathlib.Data.String.Basic
import TaskQueue.Redis.Store

/-!
# The Lua scripts

`internal/rdb/scripts/*.lua`, script for script. Redis runs a script without interleaving, so a
script is a function from the store it sees and the server time to its reply and the store it
leaves. The keys and arguments a script is given are those the Go side builds, and where a script
derives a key from a field it reads, so does the definition: `ack`, `nack` and `kill` find the
active set by the `queue` field of the hash, and remove the member its `id` field names.
-/

namespace TaskQueue.Redis

namespace Script

/-! ### enqueue.lua -/

/-- The hash `enqueue.lua` writes. -/
def newHash (now : ℤ) (id queue type : String) (payload : List UInt8) (maxAttempts runAt : ℤ)
    (uniqueKey : String) : Hash where
  id := id
  queue := queue
  type := type
  payload := payload
  attempt := 0
  maxAttempts := maxAttempts
  recoveries := 0
  state := if now < runAt then .scheduled else .pending
  owner := ""
  uniqueKey := uniqueKey
  lastErr := ""
  enqueuedAt := now
  runAt := runAt
  startedAt := 0
  deadline := 0

/-- The part of `enqueue.lua` behind the unique check: the hash, then the delayed set or the ready
list, then the set of known queues. -/
def place (s : Store) (h : Hash) : Store :=
  let s := s.hset h.id h
  let s :=
    if h.state = .scheduled then { s with delayed := s.delayed.insert h.id h.runAt }
    else s.rpush h.queue h.id
  { s with queues := s.queues.insert h.queue () }

/-- `enqueue.lua`. The reply is the ID that holds the unique key, if the job was refused. -/
def enqueue (s : Store) (now : ℤ) (h : Hash) (uniqueTTL : ℤ) : Except String Unit × Store :=
  if 0 < uniqueTTL then
    match s.unique h.uniqueKey with
    | some u => (.error u.value, s)
    | none =>
      (.ok (), place { s with
        unique := Function.update s.unique h.uniqueKey (some ⟨h.id, now + uniqueTTL⟩) } h)
  else (.ok (), place s h)

/-! ### dequeue.lua -/

/-- The hash a claim leaves. -/
def claimed (now : ℤ) (worker : String) (vt : ℤ) (h : Hash) : Hash :=
  { h with
    attempt := h.attempt + 1
    state := .active
    owner := worker
    startedAt := now
    deadline := now + vt }

/-- Claim job `id`, just popped off the ready list of `q`. -/
def claim (s : Store) (now : ℤ) (worker : String) (vt : ℤ) (q id : String) (h : Hash) : Store :=
  (s.hset id (claimed now worker vt h)).zaddActive q id (now + vt)

/-- The inner loop of `dequeue.lua` over one ready list; the first argument bounds it. -/
def popJob (now : ℤ) (worker : String) (vt : ℤ) (q : String) : ℕ → Store → Option Hash × Store
  | 0, s => (none, s)
  | n + 1, s =>
    match s.ready q with
    | [] => (none, s)
    | id :: _ =>
      match s.job id with
      -- the envelope is gone: drop the ID and look at the next
      | none => popJob now worker vt q n (s.lpop q)
      | some e =>
        (some (claimed now worker vt e.hash), claim (s.lpop q) now worker vt q id e.hash)

/-- `dequeue.lua`: the hash of the job claimed, if any. -/
def dequeue (now : ℤ) (worker : String) (vt : ℤ) : List String → Store → Option Hash × Store
  | [], s => (none, s)
  | q :: qs, s =>
    match popJob now worker vt q 20 s with
    | (some h, s) => (some h, s)
    | (none, s) => dequeue now worker vt qs s

/-! ### ack.lua, nack.lua, kill.lua -/

/-- Why a script refused a report. -/
inductive Refusal
  | notfound
  | lease (state : State) (owner : String)
  deriving DecidableEq

/-- The fence `ack.lua`, `nack.lua` and `kill.lua` begin with. -/
def fence (s : Store) (worker id : String) : Except Refusal Hash :=
  match s.job id with
  | none => .error .notfound
  | some e =>
    if e.hash.state ≠ .active ∨ e.hash.owner ≠ worker then
      .error (.lease e.hash.state e.hash.owner)
    else .ok e.hash

/-- `ack.lua`; a completed hash is kept for `ttl`, or deleted at once if that is not positive. -/
def ack (s : Store) (now : ℤ) (worker id : String) (ttl : ℤ) : Except Refusal Unit × Store :=
  match fence s worker id with
  | .error r => (.error r, s)
  | .ok h =>
    let s := { s.zremActive h.queue h.id with processed := s.processed + 1 }
    if 0 < ttl then
      (.ok (), (s.hset id { h with state := .completed, owner := "" }).pexpire id (now + ttl))
    else (.ok (), s.del id)

/-- Dead-letter a job: its hash, the dead-letter set and the failed counter. -/
def deadLetter (s : Store) (now : ℤ) (id : String) (h : Hash) : Store :=
  let s := s.hset id { h with state := .dead, owner := "" }
  { s with dead := s.dead.insert h.id now, failed := s.failed + 1 }

/-- `nack.lua`. -/
def nack (s : Store) (now : ℤ) (worker id : String) (retryAt : ℤ) (reason : String) :
    Except Refusal Unit × Store :=
  match fence s worker id with
  | .error r => (.error r, s)
  | .ok h =>
    let s := s.zremActive h.queue h.id
    let h := { h with lastErr := reason, owner := "" }
    if spent h.attempt h.maxAttempts then (.ok (), deadLetter s now id h)
    else
      let s := s.hset id { h with state := .retry }
      (.ok (), { s with retry := s.retry.insert h.id retryAt })

/-- `kill.lua`. -/
def kill (s : Store) (now : ℤ) (worker id reason : String) : Except Refusal Unit × Store :=
  match fence s worker id with
  | .error r => (.error r, s)
  | .ok h =>
    (.ok (), deadLetter (s.zremActive h.queue h.id) now id { h with lastErr := reason })

/-! ### extend.lua -/

/-- A lease is pushed back to `deadline`. -/
def renew (s : Store) (id : String) (h : Hash) (deadline : ℤ) : Store :=
  (s.hset id { h with deadline := deadline }).zaddActive h.queue id deadline

/-- The loop of `extend.lua`: the IDs whose lease was lost, and the store. -/
def extend (worker : String) (deadline : ℤ) : List String → Store → List String × Store
  | [], s => ([], s)
  | id :: ids, s =>
    match fence s worker id with
    | .error _ =>
      let r := extend worker deadline ids s
      (id :: r.1, r.2)
    | .ok h => extend worker deadline ids (renew s id h deadline)

/-! ### reap.lua -/

/-- A natural number of 15 digits or more in the `%.14g` format: 14 significant digits, trailing
zeros dropped, and an exponent. -/
def scientific (n : ℕ) : String :=
  let e := Nat.log 10 n
  let m := Double.nearestEven (10 ^ (e - 13)) n
  -- rounding up may carry into a fifteenth digit
  let (m, e) := if m = 10 ^ 14 then (10 ^ 13, e + 1) else (m, e)
  match (Nat.toDigits 10 m).rdropWhile (· = '0') with
  | [] => ""
  | [d] => String.ofList [d] ++ "e+" ++ toString e
  | d :: ds => String.ofList (d :: '.' :: ds) ++ "e+" ++ toString e

/-- How Lua writes an integer it holds as a number. -/
def luaText (n : ℤ) : String :=
  if n.natAbs < 10 ^ 14 then toString n
  else (if n < 0 then "-" else "") ++ scientific n.natAbs

/-- The text stored on a job that died with its worker. -/
def orphaned (attempt : ℤ) : String :=
  "orphaned: lease expired after " ++ luaText (luaNumber attempt) ++ " attempts"

/-- The lease on a job of queue `q` ended by expiry: dead-letter it if its attempts are spent, else
put it back at the head of the ready list. -/
def recover (s : Store) (now : ℤ) (q id : String) (h : Hash) : Store :=
  let h := { h with recoveries := h.recoveries + 1, owner := "" }
  if spent h.attempt h.maxAttempts then
    let s := s.hset id { h with state := .dead, lastErr := orphaned h.attempt }
    { s with dead := s.dead.insert id now, failed := s.failed + 1 }
  else (s.hset id { h with state := .pending }).lpush q id

/-- The loop of `reap.lua` over the expired members it fetched, with the numbers recovered and
dead-lettered so far. -/
def reapLoop (now : ℤ) (q : String) : List String → ℕ × ℕ → Store → (ℕ × ℕ) × Store
  | [], n, s => (n, s)
  | id :: ids, n, s =>
    if ((s.active q).lookup id).isSome then
      let s := s.zremActive q id
      match s.job id with
      | none => reapLoop now q ids n s
      | some e =>
        let n :=
          if spent e.hash.attempt e.hash.maxAttempts then (n.1, n.2 + 1) else (n.1 + 1, n.2)
        reapLoop now q ids n (recover s now q id e.hash)
    else reapLoop now q ids n s

/-- Whether Redis reads the limit of a script. The script makes a number of it, and the `LIMIT` of
`ZRANGEBYSCORE` has to be a 64-bit integer: `2 ^ 63 - 1` is none, because the nearest double is
`2 ^ 63`. Some versions of Redis already give up at smaller limits, from `10 ^ 17` on, which they
get in scientific notation; all of them read what a double holds exactly. -/
def reads (limit : ℤ) : Bool := decide (luaNumber limit < 2 ^ 63)

theorem reads_of_le {limit : ℤ} (hlimit : limit ≤ 2 ^ 53) : reads limit = true := by
  have hexact : luaNumber (2 ^ 53) = 2 ^ 53 := Double.ofInt_of_le (by decide) le_rfl
  have hle : luaNumber limit ≤ luaNumber (2 ^ 53) := Double.ofInt_mono hlimit
  refine decide_eq_true ?_
  omega

/-- `ZRANGEBYSCORE set -inf now LIMIT 0 limit`, for a limit that Redis reads. -/
def dueMembers (set : ZSet) (now limit : ℤ) : List String :=
  (Table.keysOf (set.due (fun _ ↦ true) now)).take limit.toNat

/-- `reap.lua`, with a limit that Redis reads. -/
def reap (s : Store) (now : ℤ) (q : String) (limit : ℤ) : (ℕ × ℕ) × Store :=
  reapLoop now q (dueMembers (s.active q) now limit) (0, 0) s

/-! ### promote.lua -/

/-- The two sets `promote.lua` drains, in its order. -/
inductive WaitSet
  | delayed
  | retry
  deriving DecidableEq

/-- The members of one of the two sets. -/
def waitSet (s : Store) : WaitSet → ZSet
  | .delayed => s.delayed
  | .retry => s.retry

/-- `ZREM` from one of the two sets. -/
def zremWait (s : Store) (set : WaitSet) (id : String) : Store :=
  match set with
  | .delayed => { s with delayed := s.delayed.erase id }
  | .retry => { s with retry := s.retry.erase id }

section

variable (s : Store) (set : WaitSet) (id : String)

@[simp] theorem zremWait_job : (zremWait s set id).job = s.job := by cases set <;> rfl

@[simp] theorem zremWait_ready : (zremWait s set id).ready = s.ready := by cases set <;> rfl

@[simp] theorem zremWait_active : (zremWait s set id).active = s.active := by cases set <;> rfl

@[simp] theorem zremWait_dead : (zremWait s set id).dead = s.dead := by cases set <;> rfl

@[simp] theorem zremWait_unique : (zremWait s set id).unique = s.unique := by cases set <;> rfl

end

/-- A due job goes to the tail of the ready list its hash names. -/
def promoteJob (s : Store) (id : String) (h : Hash) : Store :=
  (s.hset id { h with state := .pending, owner := "" }).rpush h.queue id

/-- The wait sets without the job that was promoted. -/
theorem waitSet_promoteJob {s : Store} (set set' : WaitSet) (id x : String) (h : Hash) :
    (waitSet (promoteJob (zremWait s set id) id h) set').lookup x =
      if x = id ∧ set' = set then none else (waitSet s set').lookup x := by
  rcases set with - | - <;> rcases set' with - | - <;>
    simp [promoteJob, zremWait, waitSet, Store.hset, Store.rpush, Table.lookup_erase_eq]

/-- The inner loop of `promote.lua` over the due members it fetched from one set. -/
def promoteLoop (set : WaitSet) : List String → ℕ → Store → ℕ × Store
  | [], n, s => (n, s)
  | id :: ids, n, s =>
    if ((waitSet s set).lookup id).isSome then
      let s := zremWait s set id
      match s.job id with
      | none => promoteLoop set ids n s
      | some e => promoteLoop set ids (n + 1) (promoteJob s id e.hash)
    else promoteLoop set ids n s

/-- One round of the outer loop of `promote.lua`. -/
def promoteSet (now limit : ℤ) (set : WaitSet) (r : ℕ × Store) : ℕ × Store :=
  if r.1 < limit then
    promoteLoop set (dueMembers (waitSet r.2 set) now (limit - r.1)) r.1 r.2
  else r

/-- `promote.lua`, with a limit that Redis reads. -/
def promote (s : Store) (now limit : ℤ) : ℕ × Store :=
  promoteSet now limit .retry (promoteSet now limit .delayed (0, s))

/-! ### cron_claim.lua -/

/-- `cron_claim.lua`: a compare-and-set on the score. -/
def cronClaim (s : Store) (id : String) (firedAt nextAt : ℤ) : Bool × Store :=
  match s.cron.lookup id with
  | none => (false, s)
  | some score =>
    if score ≠ firedAt then (false, s)
    else (true, { s with cron := s.cron.insert id nextAt })

end Script

end TaskQueue.Redis
