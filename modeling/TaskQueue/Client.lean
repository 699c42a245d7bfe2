import TaskQueue.Cron.Schedule
import TaskQueue.Redis.Window
import TaskQueue.Scheduler.Model
import TaskQueue.Server.Config

/-!
# The producer's side

`Client` turns a task into a job: it fills in defaults, applies the options of the call one after
the other and hands the job to a broker. The brokers are modelled elsewhere, so a client here is
given the broker's `Enqueue`.

An `Enqueue` that ends in an error may have stored its job all the same: the answer can be lost on
the way. The advice of the source is to pass `Unique`, to try again, and to take `ErrDuplicate` for
success. That is sound (`retries_store_one_job`): whoever tries under a key, how often, from how
many processes and with how many answers lost, **one job** is in its window, and everybody who gets
an answer is told its ID.
-/

namespace TaskQueue

/-! ### Tasks -/

/-- `Task` -/
structure Task where
  type : String
  payload : List UInt8

/-- What `NewTask` fails with. -/
inductive TaskError
  /-- `ErrInvalidTask`, for an empty type. -/
  | noType
  | marshal (taskType : String) (detail : String)

/-- `NewTask`; `marshal` is `json.Marshal`, and a nil payload is not encoded at all. -/
def newTask {α : Type} (marshal : α → Except String (List UInt8)) (taskType : String)
    (payload : Option α) : Except TaskError Task :=
  if taskType = "" then .error .noType
  else
    match payload with
    | none => .ok ⟨taskType, []⟩
    | some x =>
      match marshal x with
      | .error e => .error (.marshal taskType e)
      | .ok b => .ok ⟨taskType, b⟩

/-! ### Clients -/

/-- `Client`, without its broker. -/
structure Client where
  defaultQueue : String
  defaultMaxAttempts : ℤ

/-- `ClientOption` -/
abbrev ClientOption := Client → Client

/-- `WithDefaultQueue` -/
def withDefaultQueue (q : String) : ClientOption := fun c ↦ { c with defaultQueue := q }

/-- `WithDefaultMaxAttempts` -/
def withDefaultMaxAttempts (n : ℤ) : ClientOption := fun c ↦ { c with defaultMaxAttempts := n }

/-- `NewClient` -/
def newClient (opts : List ClientOption) : Client :=
  opts.foldl (fun c opt ↦ opt c) ⟨defaultQueue, defaultMaxAttempts⟩

/-- `EnqueueOption`. An option may read the clock, so it is given what the clock says. -/
abbrev EnqueueOption := Time → Job → Job

namespace EnqueueOption

/-- `Queue` -/
def queue (name : String) : EnqueueOption := fun _ j ↦ { j with queue := name }

/-- `MaxAttempts` -/
def maxAttempts (n : ℤ) : EnqueueOption := fun _ j ↦ { j with maxAttempts := n }

/-- `Delay` -/
def delay (d : Duration) : EnqueueOption := fun wall j ↦ { j with runAt := wall + d }

/-- `At` -/
def runAt (t : Time) : EnqueueOption := fun _ j ↦ { j with runAt := t }

/-- `Unique` -/
def unique (key : String) (ttl : Duration) : EnqueueOption :=
  fun _ j ↦ { j with uniqueKey := key, uniqueTTL := ttl }

end EnqueueOption

namespace Client

variable {σ : Type} (c : Client)

/-- The job that `Enqueue` hands to the broker. -/
def job (task : Task) (opts : List EnqueueOption) (wall : Time) : Job :=
  opts.foldl (fun j opt ↦ opt wall j)
    { Job.plain c.defaultQueue task.type c.defaultMaxAttempts with payload := task.payload }

/-- `Enqueue`, on a broker that is in the state `s`. -/
def enqueue (broker : Option Job → Except Err Job × σ) (s : σ) (task : Option Task)
    (opts : List EnqueueOption) (wall : Time) : Except Err Job × σ :=
  match task with
  | none => (.error (.invalidTask "nil task"), s)
  | some task => broker (some (c.job task opts wall))

/-- `EnqueueTask` -/
def enqueueTask {α : Type} (marshal : α → Except String (List UInt8))
    (broker : Option Job → Except Err Job × σ) (s : σ) (taskType : String) (payload : Option α)
    (opts : List EnqueueOption) (wall : Time) : Except (TaskError ⊕ Err) Job × σ :=
  match newTask marshal taskType payload with
  | .error e => (.error (.inl e), s)
  | .ok task => (c.enqueue broker s (some task) opts wall).map (·.mapError .inr) id

end Client

/-! ### Producers over one Redis broker -/

namespace Producers

open Redis (Store Config Call exec milliseconds openJobs Windowed)

/-- One step of the system: an `Enqueue` of some client, or a command of anybody else. -/
inductive Step
  | submit (c : Client) (task : Task) (opts : List EnqueueOption) (newID : String) (wall : Time)
  | other (op : Redis.Op)

/-- A step at a server time; a command and its answer can be lost. -/
structure Input where
  now : ℤ
  step : Step
  fate : Scheduler.Fate

section

variable (cfg : Config) (s : Store) (i : Input)

/-- `Enqueue` of a client on the Redis broker. -/
def submit (now : ℤ) (c : Client) (task : Task) (opts : List EnqueueOption) (newID : String)
    (wall : Time) : Except Err Job × Store :=
  c.enqueue (Redis.enqueue (s.live cfg.visible now) now newID wall) s (some task) opts wall

/-- The broker after a step. -/
def next : Store :=
  if i.fate = .unsent then s
  else
    match i.step with
    | .submit c task opts newID wall => (submit cfg s i.now c task opts newID wall).2
    | .other op => (exec cfg s ⟨i.now, op⟩).2

/-- What `Enqueue` returns to the producer; without an answer it is an error that says nothing. -/
def told : Option (Except Err Job) :=
  match i.step with
  | .submit c task opts newID wall =>
    if i.fate = .answered then some (submit cfg s i.now c task opts newID wall).1 else none
  | .other _ => none

/-- Producers and their broker. -/
def machine : Machine Store Input where
  init := .empty
  next := next cfg

end

/-- The command of a step. -/
def opOf : Step → Redis.Op
  | .submit c task opts newID wall => .enqueue newID wall (some (c.job task opts wall))
  | .other op => op

/-- The call that reaches the broker in a step. -/
def callOf (i : Input) : Option Call :=
  if i.fate = .unsent then none else some ⟨i.now, opOf i.step⟩

/-- The broker's part of a run. -/
def calls (h : List (Turn Store Input)) : List (Turn Store Call) :=
  h.filterMap fun t ↦ (callOf t.input).map fun c ↦ ⟨t.before, c⟩

variable {cfg : Config} {s : Store} {i : Input} {k : String} {t : Turn Store Input}
  {h : List (Turn Store Input)}

theorem callOf_eq_some_iff {c : Call} :
    callOf i = some c ↔ i.fate ≠ .unsent ∧ c = ⟨i.now, opOf i.step⟩ := by
  rw [callOf]
  split_ifs with hfate
  · simp [hfate]
  · simp [hfate, eq_comm]

theorem next_of_none (hcall : callOf i = none) : next cfg s i = s := by
  rw [callOf] at hcall
  split_ifs at hcall with hfate
  exact if_pos hfate

theorem next_of_some {c : Call} (hcall : callOf i = some c) : next cfg s i = (exec cfg s c).2 := by
  obtain ⟨hfate, rfl⟩ := callOf_eq_some_iff.1 hcall
  rw [next, if_neg hfate]
  -- an `Enqueue` of a client is an `Enqueue` of the broker
  rcases i.step with ⟨c, task, opts, newID, wall⟩ | op
  · rfl
  · rfl

theorem calls_of_none (hcall : callOf t.input = none) : calls (t :: h) = calls h := by
  rw [calls, List.filterMap_cons, hcall]
  rfl

theorem calls_of_some {c : Call} (hcall : callOf t.input = some c) :
    calls (t :: h) = ⟨t.before, c⟩ :: calls h := by
  rw [calls, List.filterMap_cons, hcall]
  rfl

/-- What a run may do next: the server time does not go back, and whoever uses the key asks for a
window of at least a millisecond. -/
structure Careful (k : String) (h : List (Turn Store Input)) (_ : Store) (i : Input) : Prop where
  clock : ∀ t ∈ h, t.input.now ≤ i.now
  window : ∀ c, callOf i = some c → ∀ newID wall j, c.op = .enqueue newID wall (some j) →
    j.uniqueKey = k → 0 < milliseconds j.uniqueWindow

/-- A call of the broker's part is at the time of its step. -/
theorem clock_calls {now : ℤ} (hclock : ∀ t ∈ h, t.input.now ≤ now) :
    ∀ t ∈ calls h, t.input.now ≤ now := by
  intro t ht
  obtain ⟨t', ht', hmap⟩ := List.mem_filterMap.1 ht
  obtain ⟨c, hcall, rfl⟩ := Option.map_eq_some_iff.1 hmap
  obtain ⟨-, rfl⟩ := callOf_eq_some_iff.1 hcall
  exact hclock t' ht'

/-- The broker's part of a run is a run of the broker. -/
theorem run_calls (hrun : (machine cfg).Run (Careful k) h s) :
    (Redis.machine cfg).Run (Windowed k) (calls h) s := by
  induction hrun with
  | start => exact .start
  | @step h s i hrun hok ih =>
    rcases hcall : callOf i with - | c
    · rw [calls_of_none hcall, show (machine cfg).next s i = s from next_of_none hcall]
      exact ih
    · rw [calls_of_some hcall, show (machine cfg).next s i = _ from next_of_some hcall]
      refine .step c ih ⟨?_, hok.window c hcall⟩
      obtain ⟨-, rfl⟩ := callOf_eq_some_iff.1 hcall
      exact clock_calls hok.clock

/-- **Trying again is safe.** Many producers, any number of times each, enqueue under a unique key;
commands and answers get lost, and the broker is used by others meanwhile. Whenever an `Enqueue`
under the key reaches the broker, there is exactly one job whose window is open then, whoever
stored it, and a producer that gets an answer is given this job or told its ID. Of Redis it is
assumed that keys are there before they expire and stay gone. -/
theorem retries_store_one_job (hvisible : Redis.Expires cfg.visible)
    (hearly : ∀ now t, now < t → cfg.visible now t = true)
    (hk : k ≠ "") {c : Client} {task : Task} {opts : List EnqueueOption} {newID : String}
    {wall : Time} (hrun : (machine cfg).Run (Careful k) (t :: h) s)
    (hstep : t.input.step = .submit c task opts newID wall) (hran : t.input.fate ≠ .unsent)
    (hkey : (c.job task opts wall).uniqueKey = k) (hqueue : (c.job task opts wall).queue ≠ "")
    (htype : (c.job task opts wall).type ≠ "") :
    ∃ jobID, openJobs cfg k t.input.now (calls (t :: h)) = [jobID] ∧
      ∀ r, told cfg t.before t.input = some r →
        (∃ j, r = .ok j ∧ j.id = jobID) ∨ r = .error (.duplicate k jobID) := by
  have hcall : callOf t.input =
      some ⟨t.input.now, .enqueue newID wall (some (c.job task opts wall))⟩ := by
    rw [callOf, if_neg hran, hstep, opOf]
  obtain ⟨hbefore, hok, hafter⟩ := hrun.of_cons
  have hnow : ∀ t' ∈ t :: h, t'.input.now ≤ t.input.now :=
    List.forall_mem_cons.2 ⟨le_rfl, hok.clock⟩
  have hopen := Redis.openJobs_eq_holder hvisible hk (run_calls hrun) t.input.now
    (clock_calls hnow)
  have hwindow := hok.window _ hcall newID wall _ rfl hkey
  have hs : s = (Redis.enqueue (t.before.live cfg.visible t.input.now) t.input.now newID wall
      (some (c.job task opts wall))).2 := hafter.trans (next_of_some hcall)
  have htold : ∀ r, told cfg t.before t.input = some r →
      r = (Redis.enqueue (t.before.live cfg.visible t.input.now) t.input.now newID wall
        (some (c.job task opts wall))).1 := by
    intro r hr
    rw [told, hstep] at hr
    dsimp only at hr
    split_ifs at hr
    exact (Option.some.inj hr).symm
  rcases Redis.enqueue_keyed (t.before.live cfg.visible t.input.now) t.input.now newID wall hqueue
      htype (hkey ▸ hk) hwindow with ⟨u, hu, heq⟩ | ⟨-, j', s', heq, -, hunique⟩
  · -- refused: the key is held, and stays as it is
    rw [heq] at hs htold
    rw [hkey] at hu
    have hholder : (s.live cfg.visible t.input.now).unique k = some u := by
      rw [hs]
      exact (Redis.live_live_unique hvisible le_rfl t.before).trans hu
    rw [hholder] at hopen
    refine ⟨u.value, hopen, fun r hr ↦ .inr ?_⟩
    rw [htold r hr, hkey]
  · rw [heq] at hs htold
    have hholder : (s.live cfg.visible t.input.now).unique k =
        some ⟨j'.id, t.input.now + milliseconds (c.job task opts wall).uniqueWindow⟩ := by
      rw [hs]
      show (s'.unique k).filter _ = _
      rw [hunique, ← hkey, Function.update_self, Option.filter_some, if_pos]
      exact hearly _ _ (lt_add_of_pos_right _ hwindow)
    rw [hholder] at hopen
    exact ⟨j'.id, hopen, fun r hr ↦ .inl ⟨j', htold r hr, rfl⟩⟩

/-- An `Enqueue` of one and the same task, for a minute. -/
def attempt (newID : String) (fate : Scheduler.Fate) (now : ℤ) : Input where
  now := now
  step := .submit (newClient []) ⟨"t", []⟩ [.unique "k" Cron.minute] newID 0
  fate := fate

theorem careful_attempt {newID : String} {fate : Scheduler.Fate} {now : ℤ}
    (hclock : ∀ t ∈ h, t.input.now ≤ now) : Careful "k" h s (attempt newID fate now) where
  clock := hclock
  window c hcall newID' wall j hop _ := by
    obtain ⟨-, rfl⟩ := callOf_eq_some_iff.1 hcall
    obtain ⟨-, -, hj⟩ := Redis.Op.enqueue.inj hop
    obtain rfl := Option.some.inj hj
    decide

/-- The first attempt does not reach the broker, the answer to the second is lost, and the third is
told of the job that the second has stored. -/
theorem retries_store_one_job_answered : ∃ t h s,
    (machine .default).Run (Careful "k") (t :: h) s ∧ h.length = 2 ∧
      told .default t.before t.input = some (.error (.duplicate "k" "b")) ∧
      openJobs .default "k" t.input.now (calls (t :: h)) = ["b"] := by
  have hrun : (machine .default).Run (Careful "k") _ _ :=
    .step (attempt "c" .answered 2)
      (.step (attempt "b" .lost 1)
        (.step (attempt "a" .unsent 0) .start (careful_attempt (by simp)))
        (careful_attempt (by simp [attempt])))
      (careful_attempt (by simp [attempt]))
  obtain ⟨jobID, hopen, htold⟩ := retries_store_one_job Redis.expires_default
    (fun _ _ hlt ↦ decide_eq_true hlt) (by decide) hrun rfl (by decide) rfl (by decide) (by decide)
  rcases htold (.error (.duplicate "k" "b")) (by rfl) with ⟨j, hj, -⟩ | hdup
  · cases hj
  · cases hdup
    exact ⟨_, _, _, hrun, rfl, by rfl, hopen⟩

end Producers

end TaskQueue
