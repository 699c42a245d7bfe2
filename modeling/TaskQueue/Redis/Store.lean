import Mathlib.Logic.Function.Basic
import TaskQueue.Data.Double
import TaskQueue.Broker

/-!
# What the Redis broker keeps in Redis

The keys of `internal/rdb/rdb.go`, one field for each key builder: a builder that takes an argument
is a function of it, and a key that does not exist is `none` or empty. Times are Unix milliseconds.

**Expiry.** A key with a time to live is there until Redis stops showing it. When exactly that is
belongs to Redis and not to this repository, so it is a parameter `visible now expireAt`; every
script first sees the store with the invisible keys gone (`Store.live`), and inside a script time
stands still. Only job hashes and unique keys ever get a time to live.

**Numbers.** Lua computes with doubles. The server clock stays below `2 ^ 53` for a quarter of a
million years, and up to there a double holds every time exactly; a later time compares with the
clock as it would exactly, since rounding is monotone. So times are integers here. Attempt budgets
come from a caller and have no such bound: `luaNumber` is what `tonumber` makes of one.
-/

namespace TaskQueue.Redis

/-- A sorted set: members with their scores. -/
abbrev ZSet := Table String ℤ

/-- A job hash, field for field. -/
structure Hash where
  id : String
  queue : String
  type : String
  payload : List UInt8
  attempt : ℤ
  maxAttempts : ℤ
  recoveries : ℤ
  state : State
  owner : String
  uniqueKey : String
  lastErr : String
  enqueuedAt : ℤ
  runAt : ℤ
  startedAt : ℤ
  deadline : ℤ
  deriving DecidableEq

/-- A job key: the hash and the expiry Redis keeps beside it. -/
structure Entry where
  hash : Hash
  expireAt : Option ℤ
  deriving DecidableEq

/-- A unique key: the ID of the job that took it, and its expiry. -/
structure UniqueKey where
  value : String
  expireAt : ℤ
  deriving DecidableEq

/-- The keyspace of one broker. -/
structure Store where
  /-- `kJob` -/
  job : String → Option Entry
  /-- `kQueue`: the head is next to claim. -/
  ready : String → List String
  /-- `kActive` -/
  active : String → ZSet
  /-- `kDelayed` -/
  delayed : ZSet
  /-- `kRetry` -/
  retry : ZSet
  /-- `kDead` -/
  dead : ZSet
  /-- `kQueues` -/
  queues : Table String Unit
  /-- `kUnique` -/
  unique : String → Option UniqueKey
  /-- `kProcessed` -/
  processed : ℤ
  /-- `kFailed` -/
  failed : ℤ
  /-- `kCron` -/
  cron : ZSet

/-- An empty Redis. -/
def Store.empty : Store where
  job _ := none
  ready _ := []
  active _ := ∅
  delayed := ∅
  retry := ∅
  dead := ∅
  queues := ∅
  unique _ := none
  processed := 0
  failed := 0
  cron := ∅

/-- What `tonumber` makes of an integer. -/
def luaNumber (n : ℤ) : ℤ := Double.ofInt n

/-- The scripts' test for a spent attempt budget. -/
def spent (attempt maxAttempts : ℤ) : Bool := decide (luaNumber maxAttempts ≤ luaNumber attempt)

/-- Keys that are gone stay gone. -/
def Expires (visible : ℤ → ℤ → Bool) : Prop :=
  ∀ now now' expireAt, now ≤ now' → visible now' expireAt = true → visible now expireAt = true

/-- Only the last look at the clock counts. -/
theorem Expires.filter_filter {visible : ℤ → ℤ → Bool} {α : Type} (hvisible : Expires visible)
    {now now' : ℤ} (hle : now ≤ now') (c : Option α) (expireAt : α → Option ℤ) :
    (c.filter fun a ↦ (expireAt a).all (visible now)).filter
        (fun a ↦ (expireAt a).all (visible now')) =
      c.filter fun a ↦ (expireAt a).all (visible now') := by
  refine Option.ext fun a ↦ ?_
  simp only [Option.filter_eq_some_iff]
  refine ⟨fun h ↦ ⟨h.1.1, h.2⟩, fun h ↦ ⟨⟨h.1, ?_⟩, h.2⟩⟩
  rcases he : expireAt a with _ | t
  · rfl
  · have hlate := h.2
    rw [he] at hlate
    exact hvisible now now' t hle hlate

namespace Store

variable (s : Store)

/-- The store a script run at `now` sees. -/
def live (visible : ℤ → ℤ → Bool) (now : ℤ) : Store :=
  { s with
    job := fun id ↦ (s.job id).filter fun e ↦ e.expireAt.all (visible now)
    unique := fun k ↦ (s.unique k).filter fun u ↦ visible now u.expireAt }

/-- `HSET` on a job key. It leaves an expiry that is already there alone. -/
def hset (id : String) (h : Hash) : Store :=
  { s with job := Function.update s.job id (some ⟨h, (s.job id).bind Entry.expireAt⟩) }

/-- `DEL` of a job key. -/
def del (id : String) : Store := { s with job := Function.update s.job id none }

/-- `PEXPIRE` of a job key. -/
def pexpire (id : String) (at_ : ℤ) : Store :=
  { s with
    job := Function.update s.job id ((s.job id).map fun e ↦ { e with expireAt := some at_ }) }

/-- `RPUSH` on a ready list. -/
def rpush (q id : String) : Store :=
  { s with ready := Function.update s.ready q (s.ready q ++ [id]) }

/-- `LPUSH` on a ready list. -/
def lpush (q id : String) : Store := { s with ready := Function.update s.ready q (id :: s.ready q) }

/-- `LPOP` of a ready list, without the reply. -/
def lpop (q : String) : Store := { s with ready := Function.update s.ready q (s.ready q).tail }

/-- `ZADD` on an active set. -/
def zaddActive (q id : String) (score : ℤ) : Store :=
  { s with active := Function.update s.active q ((s.active q).insert id score) }

/-- `ZREM` from an active set. -/
def zremActive (q id : String) : Store :=
  { s with active := Function.update s.active q ((s.active q).erase id) }

end Store

end TaskQueue.Redis
