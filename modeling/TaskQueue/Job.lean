import Mathlib.Data.Int.Notation
import Mathlib.Data.Int.Order.Basic
import Mathlib.Algebra.Group.Int.Defs

/-!
# Jobs, their lifecycle and the errors brokers return

The envelope of `job.go` and the sentinel errors of `errors.go`, field for field.

A `time.Time` is the instant it denotes, in nanoseconds since the Unix epoch, and a
`time.Duration` is a number of nanoseconds; `zeroTime` is Go's zero value, 1 January of year 1. A
state is a constructor rather than a string: the empty state of a job that has not been enqueued
is `State.none`, and no other string is ever assigned.
-/

namespace TaskQueue

/-- An instant, in nanoseconds since the Unix epoch. -/
abbrev Time := ℤ

/-- A length of time, in nanoseconds. -/
abbrev Duration := ℤ

/-- The zero `time.Time`: 1 January of year 1, UTC. -/
def zeroTime : Time := -62135596800 * 10 ^ 9

/-- One millisecond. -/
def millisecond : Duration := 10 ^ 6

/-- One hour. -/
def hour : Duration := 3600 * 10 ^ 9

/-! ### The lifecycle graph -/

/-- The position of a job in its lifecycle; `none` is the pseudo-state of a job that has not been
enqueued. -/
inductive State
  | none
  | scheduled
  | retry
  | pending
  | active
  | completed
  | dead
  deriving DecidableEq, Repr

/-- The authoritative lifecycle graph. -/
def validTransitions : State → List State
  | .none => [.pending, .scheduled]
  | .scheduled => [.pending]
  | .retry => [.pending]
  | .pending => [.active]
  -- `active → pending` is orphan recovery, `active → retry` a handler error with attempts left
  | .active => [.completed, .retry, .dead, .pending]
  | .completed => []
  -- `dead → pending` is an operator replaying from the dead-letter queue
  | .dead => [.pending]

/-- Whether moving a job from one state to another is legal. -/
def canTransition (src dst : State) : Bool := (validTransitions src).contains dst

/-! ### The envelope -/

/-- The unit of work as it exists in a broker. -/
structure Job where
  id : String
  queue : String
  type : String
  payload : List UInt8
  attempt : ℤ
  maxAttempts : ℤ
  recoveries : ℤ
  state : State
  owner : String
  uniqueKey : String
  uniqueTTL : Duration
  lastErr : String
  enqueuedAt : Time
  runAt : Time
  startedAt : Time
  deadline : Time
  deriving DecidableEq

/-- A job as a producer writes it, with nothing but the queue, the type and the attempt budget. -/
def Job.plain (queue type : String) (maxAttempts : ℤ) : Job where
  id := ""
  queue := queue
  type := type
  payload := []
  attempt := 0
  maxAttempts := maxAttempts
  recoveries := 0
  state := .none
  owner := ""
  uniqueKey := ""
  uniqueTTL := 0
  lastErr := ""
  enqueuedAt := zeroTime
  runAt := zeroTime
  startedAt := zeroTime
  deadline := zeroTime

/-- The attempt budget of a job that names none. -/
def defaultMaxAttempts : ℤ := 25

/-- Whether the job has used up its attempts and must be dead-lettered rather than retried or
recovered. -/
def Job.exhausted (j : Job) : Bool := decide (j.maxAttempts ≤ j.attempt)

/-- How long a unique key is held when the job names no positive time. -/
def Job.uniqueWindow (j : Job) : Duration := if j.uniqueTTL ≤ 0 then hour else j.uniqueTTL

/-- What `Enqueue` fills in before it stores anything: an ID and an attempt budget. -/
def Job.assigned (j : Job) (newID : String) : Job :=
  { j with
    id := if j.id = "" then newID else j.id
    maxAttempts := if j.maxAttempts ≤ 0 then defaultMaxAttempts else j.maxAttempts }

/-! ### Errors -/

/-- The errors a broker returns, each with what its text is built from. -/
inductive Err
  /-- `ErrNoJob` -/
  | noJob
  /-- `ErrLeaseLost`, naming the job, its state and owner, and the caller. -/
  | leaseLost (jobID : String) (state : State) (owner workerID : String)
  /-- `DuplicateError` -/
  | duplicate (uniqueKey existingID : String)
  /-- `ErrJobNotFound` -/
  | jobNotFound (jobID : String)
  /-- `ErrInvalidTask`, with the text after the colon. -/
  | invalidTask (detail : String)
  /-- `ErrClosed` -/
  | closed
  /-- What Redis answers to a count it cannot read, "value is not an integer or out of range",
  behind the text that says what was called. -/
  | notInteger (call : String)
  /-- No error value but a panic of the run time, "makeslice: cap out of range". -/
  | makeslice
  /-- The in-memory `Ack` refusing a transition the lifecycle graph does not have. -/
  | cannotComplete (jobID : String) (state : State)
  deriving DecidableEq, Repr

end TaskQueue
