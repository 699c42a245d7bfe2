import TaskQueue.Data.Roster
import TaskQueue.Data.Table
import TaskQueue.Job
import TaskQueue.Transition.Run

/-!
# A worker process

One `Server` inside `Run`: the fetch loop, a goroutine per claimed job, the renewal loop and the
shutdown at the end, as they run concurrently. A step is one thing that no other goroutine can see
half done: a send or a receive on the `slots` channel, a call of the broker, a critical section of
`mu`, an operation on the `WaitGroup`. Which goroutine goes next is not determined, so a run is any
interleaving of the steps that are possible.

**What is free.** The broker may answer a `Dequeue` with any job, also one that an earlier goroutine
of this process is still running, with `ErrNoJob` or with any other error, and an `Extend` with any
list of lost jobs or with an error. A handler returns nil or any error, or panics. The context may
be cancelled at any point, timers fire at any point, and a `select` with several ready cases takes
any of them.

**Executions.** Every successful `Dequeue` starts an execution of a job, and an execution is named
by its number: several of them may have the same job ID. The `inFlight` map is keyed by job ID and
holds cancel functions; here it holds the number of the execution whose function it is.
-/

namespace TaskQueue.Server

/-- What a worker is configured with, as far as the loops read it. -/
structure Config where
  workerID : String
  concurrency : ℕ
  /-- `Backoff.Next` -/
  backoff : ℤ → Duration

/-! ### Handlers and reports -/

/-- How a handler ends. -/
inductive Outcome
  /-- It returned nil. -/
  | succeeded
  /-- It returned an error with this text; the flag says whether `ErrSkipRetry` is wrapped in it. -/
  | failed (text : String) (skipRetry : Bool)
  /-- It panicked with a value that prints as this text. -/
  | panicked (value : String)
  deriving DecidableEq

/-- An error, as far as `runJob` looks at it. -/
structure HandlerError where
  text : String
  /-- `errors.Is(err, ErrSkipRetry)` -/
  skipRetry : Bool
  deriving DecidableEq

/-- `invoke`: a panic becomes an ordinary error. It is formatted with `%v`, so nothing is wrapped in
it. -/
def invoke : Outcome → Option HandlerError
  | .succeeded => none
  | .failed text skipRetry => some ⟨text, skipRetry⟩
  | .panicked value => some ⟨"taskq: handler panicked: " ++ value, false⟩

/-- The calls that report an outcome to the broker. -/
inductive Report
  | ack (workerID jobID : String)
  | nack (workerID jobID : String) (retryAt : Time) (reason : String)
  | kill (workerID jobID reason : String)
  deriving DecidableEq

/-- The report of `runJob` on a job whose handler ended with `err`, at the time `now`. -/
def report (cfg : Config) (now : Time) (j : Job) : Option HandlerError → Report
  | none => .ack cfg.workerID j.id
  | some e =>
    if e.skipRetry then .kill cfg.workerID j.id e.text
    else .nack cfg.workerID j.id (now + cfg.backoff j.attempt) e.text

/-! ### The state -/

/-- How far the execution of a job is. -/
inductive Stage
  /-- `Dequeue` returned the job. -/
  | claimed
  /-- `wg.Add(1)` and the `go` statement are done. -/
  | started
  /-- `trackJob` is done and the handler runs. -/
  | running
  /-- The handler ended. -/
  | returned (err : Option HandlerError)
  /-- `Ack`, `Nack` or `Kill` was called. -/
  | reported
  /-- `untrackJob` and `cancel` are done: `runJob` is over. -/
  | untracked
  /-- The slot is given back. -/
  | released
  /-- `wg.Done()` is done and the goroutine is gone. -/
  | finished
  deriving DecidableEq

/-- An execution of a job. -/
structure Execution where
  job : Job
  stage : Stage
  deriving DecidableEq

/-- Where `fetchLoop` is. -/
inductive Fetch
  /-- In the `select` at the top. -/
  | selecting
  /-- It has a slot and asks the broker. -/
  | polling
  /-- It has the job of this execution and has not started the goroutine. -/
  | starting (i : ℕ)
  /-- `ErrNoJob`, and the slot is still to be given back. -/
  | idle
  /-- Another error, and the slot is still to be given back. -/
  | failing
  /-- Another error, about to look at `ctx.Err()`. -/
  | checking
  /-- In `sleepCtx`. -/
  | sleeping
  deriving DecidableEq

/-- Where `Run` is. An error is its text. -/
inductive Control
  | fetching (f : Fetch)
  /-- In the first `select` of `drain`. -/
  | draining
  /-- In the second one, after `cancelJobs`. -/
  | forcing
  /-- `drain` returned and `stopMaint` was called. -/
  | stopping (err : Option String)
  | returned (err : Option String)
  deriving DecidableEq

/-- The fetch loop has a slot that it has neither handed to a goroutine nor given back. -/
def Fetch.holdsSlot : Fetch → Bool
  | .selecting => false
  | .polling => true
  | .starting _ => true
  | .idle => true
  | .failing => true
  | .checking => false
  | .sleeping => false

/-- The same of `Run`: outside the fetch loop it has none. -/
def Control.holdsSlot : Control → Bool
  | .fetching f => f.holdsSlot
  | _ => false

/-- `drain` returned nil. -/
def Control.endedWell : Control → Bool
  | .stopping none => true
  | .returned none => true
  | _ => false

/-- Where `renewLoop` is, with its count of consecutive failures. -/
inductive Renewal
  | sleeping (failures : ℕ)
  /-- It read `ids` and calls `Extend`. -/
  | extending (ids : List String) (failures : ℕ)
  /-- It cancels `ids`, one after the other. -/
  | cancelling (ids : List String)
  | stopped
  deriving DecidableEq

/-- A worker process. -/
structure Worker where
  /-- `ctx` is cancelled. -/
  cancelled : Bool
  control : Control
  /-- The number of elements in the `slots` channel. -/
  slots : ℕ
  /-- The counter of `jobWG`. -/
  wg : ℕ
  /-- The channel `done` of `drain` is closed. -/
  drained : Bool
  /-- `cancelJobs` was called. -/
  jobsCancelled : Bool
  /-- The executions, in the order of their claims. -/
  executions : List Execution
  /-- Job IDs to the execution whose cancel function is stored. -/
  inFlight : Table String ℕ
  /-- The executions whose cancel function was called, newest first. -/
  cancelCalls : List ℕ
  renewal : Renewal

/-- A worker at the start of `Run`. -/
def Worker.init : Worker where
  cancelled := false
  control := .fetching .selecting
  slots := 0
  wg := 0
  drained := false
  jobsCancelled := false
  executions := []
  inFlight := ∅
  cancelCalls := []
  renewal := .sleeping 0

/-! ### The tracking map -/

def Worker.trackJob (s : Worker) (id : String) (i : ℕ) : Worker :=
  { s with inFlight := s.inFlight.insert id i }

def Worker.untrackJob (s : Worker) (id : String) : Worker :=
  { s with inFlight := s.inFlight.erase id }

def Worker.inFlightIDs (s : Worker) : List String := s.inFlight.keys

/-- A call of the cancel function of an execution. -/
def Worker.cancel (s : Worker) (i : ℕ) : Worker := { s with cancelCalls := i :: s.cancelCalls }

def Worker.cancelJob (s : Worker) (id : String) : Worker :=
  match s.inFlight.lookup id with
  | some i => s.cancel i
  | none => s

/-! ### The steps of `fetchLoop` -/

/-- What a `Dequeue` returns. -/
inductive Dequeued
  | job (j : Job)
  | noJob
  | failed
  deriving DecidableEq

/-- The steps of `fetchLoop`. -/
inductive FetchStep
  /-- The `select` takes `<-ctx.Done()`. -/
  | leave
  /-- The `select` takes `slots <- struct{}{}`. -/
  | acquire
  | dequeue (r : Dequeued)
  /-- `wg.Add(1)` and the `go` statement. -/
  | launch
  /-- `<-slots` -/
  | giveBack
  /-- `ctx.Err() != nil` -/
  | check
  /-- `sleepCtx` returns true. -/
  | wake
  /-- `sleepCtx` returns false. -/
  | interrupt
  deriving DecidableEq

/-- Set the stage of an execution. -/
def Worker.setStage (s : Worker) (i : ℕ) (e : Execution) (st : Stage) : Worker :=
  { s with executions := s.executions.set i { e with stage := st } }

/-- One step of `fetchLoop`; `none` where it cannot go on like this. -/
def fetchLoop (cfg : Config) (s : Worker) : Fetch → FetchStep → Option Worker
  | .selecting, .leave => if s.cancelled then some { s with control := .draining } else none
  | .selecting, .acquire =>
    if s.slots < cfg.concurrency then
      some { s with slots := s.slots + 1, control := .fetching .polling }
    else none
  | .polling, .dequeue (.job j) =>
    some { s with
      executions := s.executions ++ [⟨j, .claimed⟩]
      control := .fetching (.starting s.executions.length) }
  | .polling, .dequeue .noJob => some { s with control := .fetching .idle }
  | .polling, .dequeue .failed => some { s with control := .fetching .failing }
  | .starting i, .launch =>
    s.executions[i]?.map fun e ↦
      { s.setStage i e .started with wg := s.wg + 1, control := .fetching .selecting }
  | .idle, .giveBack =>
    if 0 < s.slots then some { s with slots := s.slots - 1, control := .fetching .sleeping }
    else none
  | .failing, .giveBack =>
    if 0 < s.slots then some { s with slots := s.slots - 1, control := .fetching .checking }
    else none
  | .checking, .check =>
    some { s with control := if s.cancelled then .draining else .fetching .sleeping }
  | .sleeping, .wake => some { s with control := .fetching .selecting }
  | .sleeping, .interrupt => if s.cancelled then some { s with control := .draining } else none
  | _, _ => none

/-! ### The steps of a job's goroutine -/

/-- The steps of the goroutine of an execution: those of `runJob`, then the deferred `<-slots` and
`wg.Done()`. -/
inductive JobStep
  /-- `trackJob` -/
  | track
  /-- The handler ends. -/
  | handle (o : Outcome)
  /-- `Ack`, `Nack` or `Kill`; whatever it returns is only logged. -/
  | report (now : Time)
  /-- `untrackJob` and `cancel` -/
  | untrack
  /-- `<-slots` -/
  | release
  /-- `wg.Done()` -/
  | finish
  deriving DecidableEq

/-- The stage after a step. -/
def Stage.advance : Stage → JobStep → Option Stage
  | .started, .track => some .running
  | .running, .handle o => some (.returned (invoke o))
  | .returned _, .report _ => some .reported
  | .reported, .untrack => some .untracked
  | .untracked, .release => some .released
  | .released, .finish => some .finished
  | _, _ => none

/-- What a step does to what the goroutines share. -/
def Worker.touch (s : Worker) (i : ℕ) (id : String) : JobStep → Option Worker
  | .track => some (s.trackJob id i)
  | .handle _ => some s
  | .report _ => some s
  | .untrack => some ((s.untrackJob id).cancel i)
  | .release => if 0 < s.slots then some { s with slots := s.slots - 1 } else none
  | .finish => some { s with wg := s.wg - 1 }

/-- One step of the goroutine of execution `i`. -/
def runJob (s : Worker) (i : ℕ) (b : JobStep) : Option Worker :=
  s.executions[i]?.bind fun e ↦ (e.stage.advance b).bind fun st ↦
    (s.touch i e.job.id b).map fun s ↦ s.setStage i e st

/-! ### The steps of `drain` and of the end of `Run` -/

/-- The steps of `Run` after `fetchLoop`. -/
inductive DrainStep
  /-- `wg.Wait()` returns in its goroutine, which closes `done`. -/
  | close
  /-- The `select` takes `<-done`. -/
  | finish
  /-- The `select` takes the timer. -/
  | timeout
  /-- `maintWG.Wait()` returns, and so does `Run`. -/
  | leave
  deriving DecidableEq

/-- The error of a shutdown that took too long. -/
def shutdownTimedOut : String := "taskq: shutdown timed out with jobs still running"

/-- One step of `drain` or of the end of `Run`. -/
def drain (s : Worker) : Control → DrainStep → Option Worker
  | .fetching _, _ => none
  | _, .close => if s.wg = 0 then some { s with drained := true } else none
  | .draining, .finish => if s.drained then some { s with control := .stopping none } else none
  | .forcing, .finish => if s.drained then some { s with control := .stopping none } else none
  | .draining, .timeout => some { s with control := .forcing, jobsCancelled := true }
  | .forcing, .timeout => some { s with control := .stopping (some shutdownTimedOut) }
  | .stopping err, .leave =>
    if s.renewal = .stopped then some { s with control := .returned err, jobsCancelled := true }
    else none
  | _, _ => none

/-! ### The steps of `renewLoop` -/

/-- How many failures in a row `renewLoop` puts up with. -/
def maxRenewFailures : ℕ := 3

/-- The steps of `renewLoop`. -/
inductive RenewStep
  /-- `sleepCtx` returns true, and `inFlightIDs` lists the map in this order. -/
  | read (ids : List String)
  /-- `Extend` returns these lost jobs. -/
  | extended (lost : List String)
  /-- `Extend` returns an error. -/
  | failed
  /-- The next `cancelJob`, or the end of the loop over the IDs. -/
  | cancel
  /-- `sleepCtx` returns false. -/
  | stop
  deriving DecidableEq

/-- `stopMaint` was called. -/
def Control.maintStopped : Control → Bool
  | .stopping _ => true
  | .returned _ => true
  | _ => false

/-- One step of `renewLoop`. -/
def renewLoop (s : Worker) : Renewal → RenewStep → Option Worker
  | .sleeping failures, .read ids =>
    if ids.isPerm s.inFlightIDs then
      some { s with renewal := if ids = [] then .sleeping 0 else .extending ids failures }
    else none
  | .sleeping _, .stop =>
    if s.control.maintStopped then some { s with renewal := .stopped } else none
  | .extending _ _, .extended lost => some { s with renewal := .cancelling lost }
  | .extending ids failures, .failed =>
    some { s with
      renewal :=
        if maxRenewFailures ≤ failures + 1 then .cancelling ids else .sleeping (failures + 1) }
  | .cancelling (id :: rest), .cancel => some { s.cancelJob id with renewal := .cancelling rest }
  | .cancelling [], .cancel => some { s with renewal := .sleeping 0 }
  | _, _ => none

/-! ### Runs -/

/-- The steps of a worker process. -/
inductive Step
  /-- Somebody cancels `ctx`. -/
  | cancel
  | fetch (a : FetchStep)
  | job (i : ℕ) (b : JobStep)
  | drain (d : DrainStep)
  | renew (r : RenewStep)
  deriving DecidableEq

/-- One step of a worker process; `none` where the goroutine it belongs to is somewhere else or
blocked. -/
def step (cfg : Config) (s : Worker) : Step → Option Worker
  | .cancel => some { s with cancelled := true }
  | .fetch a =>
    match s.control with
    | .fetching f => fetchLoop cfg s f a
    | _ => none
  | .job i b => runJob s i b
  | .drain d => drain s s.control d
  | .renew r => renewLoop s s.renewal r

/-- A worker process. A step that is not possible changes nothing, and runs do not take it. -/
def machine (cfg : Config) : Machine Worker Step where
  init := .init
  next s a := (step cfg s a).getD s

/-- The step is possible. -/
def Possible (cfg : Config) (_ : List (Turn Worker Step)) (s : Worker) (a : Step) : Prop :=
  (step cfg s a).isSome

instance (cfg : Config) (h : List (Turn Worker Step)) (s : Worker) (a : Step) :
    Decidable (Possible cfg h s a) :=
  inferInstanceAs (Decidable ((step cfg s a).isSome = true))

/-- The runs of a worker process: every interleaving of possible steps. -/
abbrev Run (cfg : Config) (h : List (Turn Worker Step)) (s : Worker) : Prop :=
  (machine cfg).Run (Possible cfg) h s

variable {cfg : Config} {s s' : Worker} {a : Step} {i : ℕ} {b : JobStep} {e : Execution}
  {h : List (Turn Worker Step)}

/-- What holds at the start and is kept by every possible step holds in every run. -/
theorem Run.induct {P : List (Turn Worker Step) → Worker → Prop} (hstart : P [] .init)
    (hstep : ∀ h s a s', P h s → step cfg s a = some s' → P (⟨s, a⟩ :: h) s')
    (hrun : Run cfg h s) : P h s := by
  refine Machine.Run.invariant hstart (fun h s a _ hP hok ↦ ?_) hrun
  obtain ⟨s', hs'⟩ := Option.isSome_iff_exists.1 hok
  rw [show (machine cfg).next s a = s' from congrArg (·.getD s) hs']
  exact hstep h s a s' hP hs'

/-! ### What a step does -/

/-- A step of the goroutine of an execution, taken apart: the stage it found, and what it did to
what is shared. -/
theorem runJob_eq_some (hstep : runJob s i b = some s') :
    ∃ e st s₁, s.executions[i]? = some e ∧ e.stage.advance b = some st ∧
      s.touch i e.job.id b = some s₁ ∧ s' = s₁.setStage i e st := by
  obtain ⟨e, he, hstep⟩ := Option.bind_eq_some_iff.1 hstep
  obtain ⟨st, hst, hstep⟩ := Option.bind_eq_some_iff.1 hstep
  obtain ⟨s₁, hs₁, rfl⟩ := Option.map_eq_some_iff.1 hstep
  exact ⟨e, st, s₁, he, hst, hs₁, rfl⟩

/-- The six steps of a goroutine, in their order. -/
theorem Stage.advance_cases {st st' : Stage} (hst : st.advance b = some st') :
    b = .track ∧ st = .started ∧ st' = .running ∨
    (∃ o, b = .handle o ∧ st = .running ∧ st' = .returned (invoke o)) ∨
    (∃ now err, b = .report now ∧ st = .returned err ∧ st' = .reported) ∨
    b = .untrack ∧ st = .reported ∧ st' = .untracked ∨
    b = .release ∧ st = .untracked ∧ st' = .released ∨
    b = .finish ∧ st = .released ∧ st' = .finished := by
  unfold Stage.advance at hst
  split at hst <;> cases hst <;> simp

/-- What the goroutines share is not the list of executions. -/
theorem touch_executions {id : String} (hstep : s.touch i id b = some s') :
    s'.executions = s.executions := by
  cases b with
  | release =>
    rw [Worker.touch] at hstep
    split_ifs at hstep with hslot
    obtain rfl := Option.some.inj hstep
    rfl
  | _ =>
    obtain rfl := Option.some.inj hstep
    rfl

/-- What a step of the fetch loop does: it takes on a job, starts the goroutine of one, or moves on
with the number of slots that its new place has. -/
theorem fetchLoop_cases {f : Fetch} {a : FetchStep} (hstep : fetchLoop cfg s f a = some s') :
    (∃ j, f = .polling ∧ a = .dequeue (.job j) ∧ s' = { s with
      executions := s.executions ++ [⟨j, .claimed⟩]
      control := .fetching (.starting s.executions.length) }) ∨
    (∃ i e, f = .starting i ∧ a = .launch ∧ s.executions[i]? = some e ∧ s' =
      { s.setStage i e .started with wg := s.wg + 1, control := .fetching .selecting }) ∨
    ∃ n c, s' = { s with slots := n, control := c } ∧ (∀ j, a ≠ .dequeue (.job j)) ∧
      (∀ i, f ≠ .starting i) ∧ (c = .draining ∨ ∃ f', c = .fetching f' ∧ ∀ i, f' ≠ .starting i) ∧
      n + f.holdsSlot.toNat = s.slots + c.holdsSlot.toNat ∧
      (n ≤ s.slots ∨ n ≤ cfg.concurrency) := by
  unfold fetchLoop at hstep
  split at hstep
  · split_ifs at hstep
    exact .inr (.inr ⟨s.slots, _, (Option.some.inj hstep).symm, by simp, by simp, .inl rfl, rfl,
      .inl le_rfl⟩)
  · split_ifs at hstep with hlt
    exact .inr (.inr ⟨_, _, (Option.some.inj hstep).symm, by simp, by simp,
      .inr ⟨_, rfl, by simp⟩, rfl, .inr hlt⟩)
  · exact .inl ⟨_, rfl, rfl, (Option.some.inj hstep).symm⟩
  · exact .inr (.inr ⟨s.slots, _, (Option.some.inj hstep).symm, by simp, by simp,
      .inr ⟨_, rfl, by simp⟩, rfl, .inl le_rfl⟩)
  · exact .inr (.inr ⟨s.slots, _, (Option.some.inj hstep).symm, by simp, by simp,
      .inr ⟨_, rfl, by simp⟩, rfl, .inl le_rfl⟩)
  · obtain ⟨e, he, rfl⟩ := Option.map_eq_some_iff.1 hstep
    exact .inr (.inl ⟨_, e, rfl, rfl, he, rfl⟩)
  · split_ifs at hstep with hpos
    exact .inr (.inr ⟨_, _, (Option.some.inj hstep).symm, by simp, by simp,
      .inr ⟨_, rfl, by simp⟩, Nat.sub_add_cancel hpos, .inl (Nat.sub_le _ _)⟩)
  · split_ifs at hstep with hpos
    exact .inr (.inr ⟨_, _, (Option.some.inj hstep).symm, by simp, by simp,
      .inr ⟨_, rfl, by simp⟩, Nat.sub_add_cancel hpos, .inl (Nat.sub_le _ _)⟩)
  · refine .inr (.inr ⟨s.slots, _, (Option.some.inj hstep).symm, by simp, by simp, ?_, ?_,
      .inl le_rfl⟩)
    · split_ifs
      · exact .inl rfl
      · exact .inr ⟨_, rfl, by simp⟩
    · split_ifs <;> rfl
  · exact .inr (.inr ⟨s.slots, _, (Option.some.inj hstep).symm, by simp, by simp,
      .inr ⟨_, rfl, by simp⟩, rfl, .inl le_rfl⟩)
  · split_ifs at hstep
    exact .inr (.inr ⟨s.slots, _, (Option.some.inj hstep).symm, by simp, by simp, .inl rfl, rfl,
      .inl le_rfl⟩)
  · cases hstep

/-- `cancelJob` calls a cancel function and changes nothing else. -/
theorem cancelJob_eq (s : Worker) (id : String) :
    ∃ l, s.cancelJob id = { s with cancelCalls := l } := by
  unfold Worker.cancelJob
  split
  · exact ⟨_, rfl⟩
  · exact ⟨s.cancelCalls, rfl⟩

/-- The renewal loop changes nothing but its own place and the contexts it cancels. -/
theorem renewLoop_eq_some {r : RenewStep} (hstep : renewLoop s s.renewal r = some s') :
    ∃ l p, s' = { s with cancelCalls := l, renewal := p } := by
  generalize s.renewal = p at hstep
  unfold renewLoop at hstep
  split at hstep
  · split_ifs at hstep <;> exact ⟨_, _, (Option.some.inj hstep).symm⟩
  · split_ifs at hstep
    exact ⟨_, _, (Option.some.inj hstep).symm⟩
  · exact ⟨_, _, (Option.some.inj hstep).symm⟩
  · exact ⟨_, _, (Option.some.inj hstep).symm⟩
  · next id rest =>
    obtain ⟨l, hl⟩ := cancelJob_eq s id
    rw [hl] at hstep
    exact ⟨_, _, (Option.some.inj hstep).symm⟩
  · exact ⟨_, _, (Option.some.inj hstep).symm⟩
  · cases hstep

/-- What a step after the fetch loop does: `Run` moves on, `done` is closed once all goroutines are
gone, and `drain` returns nil only after that. -/
theorem drain_cases {d : DrainStep} (hstep : drain s s.control d = some s') :
    (∀ f, s.control ≠ .fetching f) ∧ ∃ c x y,
      s' = { s with control := c, drained := x, jobsCancelled := y } ∧ (∀ f, c ≠ .fetching f) ∧
      (x = s.drained ∨ x = true ∧ s.wg = 0) ∧
      (c.endedWell = true → s.control.endedWell = true ∨ s.drained = true) := by
  generalize hctl : s.control = ctl at hstep
  unfold drain at hstep
  split at hstep
  · cases hstep
  · next hfetch =>
    split_ifs at hstep with hwg
    exact ⟨hfetch, _, _, _, (Option.some.inj hstep).symm, by rw [hctl]; exact hfetch,
      .inr ⟨rfl, hwg⟩, by rw [hctl]; exact .inl⟩
  · split_ifs at hstep with hdone
    exact ⟨by simp, _, _, _, (Option.some.inj hstep).symm, by simp, .inl rfl, fun _ ↦ .inr hdone⟩
  · split_ifs at hstep with hdone
    exact ⟨by simp, _, _, _, (Option.some.inj hstep).symm, by simp, .inl rfl, fun _ ↦ .inr hdone⟩
  · exact ⟨by simp, _, _, _, (Option.some.inj hstep).symm, by simp, .inl rfl, Bool.noConfusion⟩
  · exact ⟨by simp, _, _, _, (Option.some.inj hstep).symm, by simp, .inl rfl, Bool.noConfusion⟩
  · next err =>
    split_ifs at hstep
    refine ⟨by simp, _, _, _, (Option.some.inj hstep).symm, by simp, .inl rfl, ?_⟩
    rcases err with - | text
    · exact fun _ ↦ .inl rfl
    · exact Bool.noConfusion
  · cases hstep

/-- What a step does to the executions: one is added, or one of them moves on. -/
theorem executions_of_step (hstep : step cfg s a = some s') :
    (∃ j, a = .fetch (.dequeue (.job j)) ∧ s'.executions = s.executions ++ [⟨j, .claimed⟩]) ∨
    (∃ i e, a = .fetch .launch ∧ s.control = .fetching (.starting i) ∧
      s.executions[i]? = some e ∧ s'.executions = s.executions.set i { e with stage := .started }) ∨
    (∃ i b e st, a = .job i b ∧ s.executions[i]? = some e ∧ e.stage.advance b = some st ∧
      s'.executions = s.executions.set i { e with stage := st }) ∨
    s'.executions = s.executions ∧ (∀ j, a ≠ .fetch (.dequeue (.job j))) ∧ ∀ i b, a ≠ .job i b := by
  cases a with
  | cancel =>
    obtain rfl := Option.some.inj hstep
    exact .inr (.inr (.inr ⟨rfl, by simp, by simp⟩))
  | fetch a =>
    rw [step] at hstep
    split at hstep
    · next f hf =>
      rcases fetchLoop_cases hstep with
        ⟨j, -, rfl, rfl⟩ | ⟨i, e, rfl, rfl, he, rfl⟩ | ⟨n, c, rfl, hno, -⟩
      · exact .inl ⟨j, rfl, rfl⟩
      · exact .inr (.inl ⟨i, e, rfl, hf, he, rfl⟩)
      · exact .inr (.inr (.inr ⟨rfl, by simpa using hno, by simp⟩))
    · cases hstep
  | job i b =>
    obtain ⟨e, st, s₁, he, hst, hs₁, rfl⟩ := runJob_eq_some hstep
    refine .inr (.inr (.inl ⟨i, b, e, st, rfl, he, hst, ?_⟩))
    rw [Worker.setStage, touch_executions hs₁]
  | drain d =>
    obtain ⟨-, c, x, y, rfl, -⟩ := drain_cases hstep
    exact .inr (.inr (.inr ⟨rfl, by simp, by simp⟩))
  | renew r =>
    obtain ⟨l, p, rfl⟩ := renewLoop_eq_some hstep
    exact .inr (.inr (.inr ⟨rfl, by simp, by simp⟩))

/-- The same for one execution. -/
theorem execution_of_step (hstep : step cfg s a = some s') (k : ℕ) :
    (∃ b e st, a = .job k b ∧ s.executions[k]? = some e ∧ e.stage.advance b = some st ∧
      s'.executions[k]? = some { e with stage := st }) ∨
    (∀ b, a ≠ .job k b) ∧ (s'.executions[k]? = s.executions[k]? ∨
      (∃ j, a = .fetch (.dequeue (.job j)) ∧ s.executions[k]? = none ∧
        s'.executions[k]? = some ⟨j, .claimed⟩) ∨
      ∃ e, s.control = .fetching (.starting k) ∧ s.executions[k]? = some e ∧
        s'.executions[k]? = some { e with stage := .started }) := by
  rcases executions_of_step hstep with ⟨j, rfl, hex⟩ | ⟨i, e, rfl, hf, he, hex⟩ |
    ⟨i, b, e, st, rfl, he, hst, hex⟩ | ⟨hex, -, hjob⟩
  · refine .inr ⟨by simp, ?_⟩
    rw [hex, Roster.getElem?_join]
    split_ifs with hk
    · exact .inr (.inl ⟨j, rfl, List.getElem?_eq_none hk.ge, rfl⟩)
    · exact .inl rfl
  · refine .inr ⟨by simp, ?_⟩
    rw [hex, Roster.getElem?_replace he]
    split_ifs with hk
    · subst hk
      exact .inr (.inr ⟨e, hf, he, rfl⟩)
    · exact .inl rfl
  · rw [hex, Roster.getElem?_replace he]
    split_ifs with hk
    · subst hk
      exact .inl ⟨b, e, st, rfl, he, hst, rfl⟩
    · refine .inr ⟨fun b' heq ↦ hk ?_, .inl rfl⟩
      exact (Step.job.inj heq).1.symm
  · exact .inr ⟨hjob k, .inl (congrArg (·[k]?) hex)⟩

/-- What a step does to the tracking map. -/
theorem inFlight_of_step (hstep : step cfg s a = some s') :
    (∃ i e, a = .job i .track ∧ s.executions[i]? = some e ∧
      s'.inFlight = s.inFlight.insert e.job.id i) ∨
    (∃ i e, a = .job i .untrack ∧ s.executions[i]? = some e ∧
      s'.inFlight = s.inFlight.erase e.job.id) ∨
    s'.inFlight = s.inFlight ∧ ∀ i, a ≠ .job i .track ∧ a ≠ .job i .untrack := by
  cases a with
  | cancel =>
    obtain rfl := Option.some.inj hstep
    exact .inr (.inr ⟨rfl, by simp⟩)
  | fetch a =>
    rw [step] at hstep
    split at hstep
    · rcases fetchLoop_cases hstep with ⟨j, -, -, rfl⟩ | ⟨i, e, -, -, -, rfl⟩ | ⟨n, c, rfl, -⟩
      all_goals exact .inr (.inr ⟨rfl, by simp⟩)
    · cases hstep
  | job i b =>
    obtain ⟨e, st, s₁, he, -, hs₁, rfl⟩ := runJob_eq_some hstep
    cases b with
    | track =>
      obtain rfl := Option.some.inj hs₁
      exact .inl ⟨i, e, rfl, he, rfl⟩
    | untrack =>
      obtain rfl := Option.some.inj hs₁
      exact .inr (.inl ⟨i, e, rfl, he, rfl⟩)
    | release =>
      rw [Worker.touch] at hs₁
      split_ifs at hs₁
      obtain rfl := Option.some.inj hs₁
      exact .inr (.inr ⟨rfl, by simp⟩)
    | _ =>
      obtain rfl := Option.some.inj hs₁
      exact .inr (.inr ⟨rfl, by simp⟩)
  | drain d =>
    obtain ⟨-, c, x, y, rfl, -⟩ := drain_cases hstep
    exact .inr (.inr ⟨rfl, by simp⟩)
  | renew r =>
    obtain ⟨l, p, rfl⟩ := renewLoop_eq_some hstep
    exact .inr (.inr ⟨rfl, by simp⟩)

end TaskQueue.Server
