import TaskQueue.Data.Fields
import TaskQueue.Redis.Broker

/-!
# Job hashes on the wire

In `TaskQueue.Redis.Store` a job hash is a record. In Redis it is a hash of byte strings: the Go
side passes eight positional arguments, `enqueue.lua` writes fifteen fields out of them, the other
scripts overwrite some, and `decodeJob` gets what `HGETALL` returns, a flat list of names and values
in no particular order. Here are the scripts' writes and `decodeJob` at that level, and the
**shadow** of each at the level of records: `fields` is the hash a record stands for, each write of
a script is the update of the record that `TaskQueue.Redis.Scripts` makes (`enqueueFields_eq`,
`promoteFields_eq`, `dequeueFields_eq`), and decoding any listing of the hash gives the job that
`TaskQueue.Redis.decodeJob` makes of the record (`decodeJob_fields`).

**Numbers.** A number that Lua computed is a double, and Redis writes it with 17 significant digits,
which is its decimal text as long as it is below `10 ^ 17`. Up to `2 ^ 53` the double is exact.
-/

namespace TaskQueue.Redis

namespace Wire

open Bulk

/-! ### Fields -/

/-- A state as it is stored. -/
def stateText : State → String
  | .none => ""
  | .scheduled => "scheduled"
  | .retry => "retry"
  | .pending => "pending"
  | .active => "active"
  | .completed => "completed"
  | .dead => "dead"

/-- `taskq.State`, of a text; a text that is not a state is read as none. -/
def stateOf (s : String) : State :=
  if s = "scheduled" then .scheduled
  else if s = "retry" then .retry
  else if s = "pending" then .pending
  else if s = "active" then .active
  else if s = "completed" then .completed
  else if s = "dead" then .dead
  else .none

@[simp] theorem stateOf_stateText (state : State) : stateOf (stateText state) = state := by
  cases state <;> decide

/-- The fields of a record. -/
def pairs (h : Hash) : List (String × Bulk) :=
  [("id", ofString h.id),
    ("queue", ofString h.queue),
    ("type", ofString h.type),
    ("payload", h.payload),
    ("attempt", decimal h.attempt),
    ("max_attempts", decimal h.maxAttempts),
    ("recoveries", decimal h.recoveries),
    ("state", ofString (stateText h.state)),
    ("owner", ofString h.owner),
    ("unique_key", ofString h.uniqueKey),
    ("last_err", ofString h.lastErr),
    ("enqueued_at", decimal h.enqueuedAt),
    ("run_at", decimal h.runAt),
    ("started_at", decimal h.startedAt),
    ("deadline", decimal h.deadline)]

/-- The hash that a record stands for. -/
def fields (h : Hash) : Fields := Fields.empty.set (pairs h)

theorem pairs_nodup (h : Hash) : ((pairs h).map Prod.fst).Nodup := by simp [pairs]

/-! ### What the scripts write -/

/-- A number of Lua as an argument of a command. -/
def luaArg (n : ℤ) : Bulk := decimal (luaNumber n)

/-- The arguments of `enqueue.lua`, as `Enqueue` builds them. -/
def enqueueArgs (j : Job) : List Bulk :=
  [ofString j.id,
    ofString j.queue,
    ofString j.type,
    j.payload,
    decimal j.maxAttempts,
    decimal (msFromTime j.runAt),
    decimal (uniqueTTL j),
    ofString j.uniqueKey]

/-- The `HSET` of `enqueue.lua`. -/
def enqueueFields (now : ℤ) (args : List Bulk) : Fields :=
  -- ARGV counts from 1
  let argv (i : ℕ) : Bulk := args.getD (i - 1) []
  let runAt := luaNumber (int64 (argv 6))
  let state := if luaNumber now < runAt then "scheduled" else "pending"
  Fields.empty.set
    [("id", argv 1),
      ("queue", argv 2),
      ("type", argv 3),
      ("payload", argv 4),
      ("attempt", luaArg 0),
      ("max_attempts", argv 5),
      ("recoveries", luaArg 0),
      ("state", ofString state),
      ("owner", ofString ""),
      ("unique_key", argv 8),
      ("last_err", ofString ""),
      ("enqueued_at", luaArg now),
      ("run_at", argv 6),
      ("started_at", luaArg 0),
      ("deadline", luaArg 0)]

/-- The `HSET` of `promote.lua`. -/
def promoteFields (f : Fields) : Fields :=
  f.set [("state", ofString "pending"), ("owner", ofString "")]

/-- The arguments of `dequeue.lua` that concern the hash: the worker and the visibility timeout. -/
def dequeueArgs (o : ClaimOpts) : List Bulk :=
  [ofString o.workerID, decimal (milliseconds o.visibilityTimeout)]

/-- The `HINCRBY` and the `HSET` of `dequeue.lua`. -/
def dequeueFields (now : ℤ) (args : List Bulk) (f : Fields) : Fields :=
  let argv (i : ℕ) : Bulk := args.getD (i - 1) []
  let vt := luaNumber (int64 (argv 2))
  (f.incr "attempt" 1).set
    [("state", ofString "active"),
      ("owner", argv 1),
      ("started_at", luaArg now),
      ("deadline", luaArg (luaNumber now + vt))]

/-! ### decodeJob -/

/-- The errors of `decodeJob`. -/
inductive DecodeError
  /-- "taskq/rdb: malformed job hash: ... fields" -/
  | malformed (fields : ℕ)
  /-- "job hash has no id", which wraps `ErrJobNotFound` -/
  | noID
  deriving DecidableEq

/-- `decodeJob`. An element that is not a string is `none`, and a field that is missing is read as
the empty string. `atoi` and `atoi64` drop the errors of the parsers. -/
def decodeJob (flat : List (Option Bulk)) : Except DecodeError Job :=
  let m (k : String) : Bulk := (Fields.collect flat .empty (ofString k)).getD []
  if flat.length % 2 ≠ 0 then .error (.malformed flat.length)
  else if m "id" = [] then .error .noID
  else
    .ok {
      id := text (m "id")
      queue := text (m "queue")
      type := text (m "type")
      payload := m "payload"
      attempt := int64 (m "attempt")
      maxAttempts := int64 (m "max_attempts")
      recoveries := int64 (m "recoveries")
      state := stateOf (text (m "state"))
      owner := text (m "owner")
      uniqueKey := text (m "unique_key")
      uniqueTTL := 0
      lastErr := text (m "last_err")
      enqueuedAt := timeFromMs (int64 (m "enqueued_at"))
      runAt := timeFromMs (int64 (m "run_at"))
      startedAt := timeFromMs (int64 (m "started_at"))
      deadline := timeFromMs (int64 (m "deadline")) }

/-! ### Shadows -/

/-- The numbers of the record fit in 64 bits. -/
structure Fits (h : Hash) : Prop where
  attempt : -2 ^ 63 ≤ h.attempt ∧ h.attempt < 2 ^ 63
  maxAttempts : -2 ^ 63 ≤ h.maxAttempts ∧ h.maxAttempts < 2 ^ 63
  recoveries : -2 ^ 63 ≤ h.recoveries ∧ h.recoveries < 2 ^ 63
  enqueuedAt : -2 ^ 63 ≤ h.enqueuedAt ∧ h.enqueuedAt < 2 ^ 63
  runAt : -2 ^ 63 ≤ h.runAt ∧ h.runAt < 2 ^ 63
  startedAt : -2 ^ 63 ≤ h.startedAt ∧ h.startedAt < 2 ^ 63
  deadline : -2 ^ 63 ≤ h.deadline ∧ h.deadline < 2 ^ 63

variable {h : Hash} {now : ℤ}

theorem luaArg_eq (h0 : 0 ≤ now) (hexact : now ≤ 2 ^ 53) : luaArg now = decimal now := by
  rw [luaArg, luaNumber, Double.ofInt_of_le h0 hexact]

/-- A time is compared with the clock as it would be exactly. -/
theorem lt_luaNumber_iff (h0 : 0 ≤ now) (hexact : now < 2 ^ 53) (t : ℤ) :
    luaNumber now < luaNumber t ↔ now < t := by
  have hnow : luaNumber now = now := Double.ofInt_of_le h0 hexact.le
  have hsucc : luaNumber (now + 1) = now + 1 :=
    Double.ofInt_of_le (by omega) (by omega)
  constructor
  · intro hlt
    by_contra hle
    exact absurd (Double.ofInt_mono (not_lt.1 hle)) (not_le.2 hlt)
  · intro hlt
    have hmono : luaNumber (now + 1) ≤ luaNumber t := Double.ofInt_mono (by omega : now + 1 ≤ t)
    omega

/-- **`enqueue.lua`** writes the record of the job. -/
theorem enqueueFields_eq (h0 : 0 ≤ now) (hexact : now < 2 ^ 53) {j : Job}
    (hrun : -2 ^ 63 ≤ msFromTime j.runAt ∧ msFromTime j.runAt < 2 ^ 63) :
    enqueueFields now (enqueueArgs j) = fields (jobHash now j) := by
  have hzero : luaArg 0 = decimal 0 := luaArg_eq le_rfl (by decide)
  have hstate : (if luaNumber now < luaNumber (int64 (decimal (msFromTime j.runAt))) then
      "scheduled" else "pending") = stateText (jobHash now j).state := by
    rw [int64_decimal hrun.1 hrun.2, jobHash, Script.newHash]
    simp only [lt_luaNumber_iff h0 hexact]
    split_ifs <;> rfl
  rw [enqueueFields, fields, pairs, ← hstate]
  simp only [hzero, luaArg_eq h0 hexact.le]
  rfl

/-- Writing over some of the fields of a record. -/
theorem set_fields {l : List (String × Bulk)} (hnodup : (l.map Prod.fst).Nodup)
    (hsub : ∀ p ∈ l, p.1 ∈ (pairs h).map Prod.fst) :
    (fields h).set l =
      Fields.empty.set ((pairs h).map fun p ↦ (p.1, (l.lookup p.1).getD p.2)) :=
  Fields.set_set (pairs_nodup h) hnodup hsub

/-- **`promote.lua`** writes the record of a pending job. -/
theorem promoteFields_eq (h : Hash) :
    promoteFields (fields h) = fields { h with state := .pending, owner := "" } :=
  set_fields (by decide) (by simp [pairs])

/-- **`dequeue.lua`** writes the record of a claimed job. -/
theorem dequeueFields_eq (h0 : 0 ≤ now) {o : ClaimOpts} (hvt : 0 ≤ milliseconds o.visibilityTimeout)
    (hexact : now + milliseconds o.visibilityTimeout ≤ 2 ^ 53)
    (hattempt : -2 ^ 63 ≤ h.attempt ∧ h.attempt < 2 ^ 63) :
    dequeueFields now (dequeueArgs o) (fields h) =
      fields (Script.claimed now o.workerID (milliseconds o.visibilityTimeout) h) := by
  have hread : fields h (ofString "attempt") = some (decimal h.attempt) :=
    Fields.set_of_mem (p := ("attempt", decimal h.attempt)) (pairs_nodup h) (by simp [pairs])
  have hvtNumber : luaNumber (int64 (decimal (milliseconds o.visibilityTimeout))) =
      milliseconds o.visibilityTimeout := by
    rw [int64_decimal (by omega) (by omega), luaNumber, Double.ofInt_of_le hvt (by omega)]
  have hnow : luaNumber now = now := Double.ofInt_of_le h0 (by omega)
  have hincr : (fields h).incr "attempt" 1 = fields { h with attempt := h.attempt + 1 } := by
    rw [Fields.incr, hread, Option.getD_some, int64_decimal hattempt.1 hattempt.2]
    exact set_fields (by simp) (by simp [pairs])
  simp only [dequeueFields, dequeueArgs, hincr, List.getD_cons_zero, List.getD_cons_succ, hvtNumber]
  rw [hnow, luaArg_eq h0 (by omega), luaArg_eq (by omega) hexact]
  exact set_fields (by simp) (by simp [pairs])

/-- **Decoding** any listing of the hash is decoding the record. -/
theorem decodeJob_fields (hfits : Fits h) (hid : h.id ≠ "") {flat : List Bulk}
    (hflat : (fields h).Lists flat) :
    ∃ j, Redis.decodeJob h = .ok j ∧ decodeJob (flat.map some) = .ok j := by
  have hnumber : ∀ {n : ℤ}, -2 ^ 63 ≤ n ∧ n < 2 ^ 63 → int64 (decimal n) = n :=
    fun hn ↦ int64_decimal hn.1 hn.2
  rw [Redis.decodeJob, if_neg hid]
  refine ⟨_, rfl, ?_⟩
  rw [decodeJob, List.length_map, Fields.even_of_lists hflat, Fields.collect_of_lists hflat]
  simp [fields, pairs, Fields.set, hid, hnumber hfits.attempt, hnumber hfits.maxAttempts,
    hnumber hfits.recoveries, hnumber hfits.enqueuedAt,
    hnumber hfits.runAt, hnumber hfits.startedAt, hnumber hfits.deadline]

end Wire

end TaskQueue.Redis
