import TaskQueue.Redis.Unique

/-!
# Cron schedulers over one Redis broker

`seedSchedules` and `fireDueSchedules` of `scheduler.go`, run by any number of schedulers at once.
Leadership is left out: it is an efficiency measure, and several schedulers may believe to be leader
at the same time.

**Steps.** Between two commands a scheduler can pause for any length of time or crash, and others
come in between, so a step of the system is one command of one scheduler. What a scheduler is in the
middle of is its program counter `Pc`; a crash loses it. A command need not reach the broker, and
its reply need not reach the scheduler; both look like an error to the caller, and the loops of the
source go on to the next entry.

**Clocks.** The broker reads the server time, which a step carries as `now`. A scheduler reads its
own clock where the source calls `time.Now`, and nothing relates that reading to the server's or to
another scheduler's.

**Schedules.** Which instants a cron expression denotes does not matter here: `schedule.Next` is any
function, and every scheduler has its own table of entries.
-/

namespace TaskQueue.Scheduler

open Redis (Store Config exec)

/-- How many due entries one pass reads. -/
def cronBatch : ℤ := 100

/-- How long the unique key of a tick is held. -/
def cronUniqueTTL : Duration := 5 * 60 * 10 ^ 9

/-- `cronUniqueKey`: one tick of one schedule. -/
def cronUniqueKey (id : String) (fireAt : Time) : String :=
  "cron:" ++ id ++ ":" ++ toString (Redis.unixMilli fireAt)

/-- A cron entry as `compile` leaves it: with a task type, and with a queue even if none was
given. -/
structure CompiledEntry where
  queue : String
  type : String
  payload : List UInt8
  maxAttempts : ℤ
  /-- `schedule.Next`; the zero time stands for never. -/
  schedule : Time → Time
  queue_ne : queue ≠ ""
  type_ne : type ≠ ""

/-- The entries one scheduler knows, by ID. -/
abbrev Entries := String → Option CompiledEntry

/-- The fire time a tick is advanced to, by a scheduler whose clock reads `wall`: the next one from
now on, or from the tick on if that is later, so that missed ticks are skipped. -/
def nextFire (ce : CompiledEntry) (wall fireAt : Time) : Option Time :=
  let base := if wall < fireAt then fireAt else wall
  let next := ce.schedule base
  if next = zeroTime then none else some next

/-- The job of one tick. -/
def tickJob (ce : CompiledEntry) (d : DueCronEntry) : Job :=
  { Job.plain ce.queue ce.type ce.maxAttempts with
    payload := ce.payload
    uniqueKey := cronUniqueKey d.id d.fireAt
    uniqueTTL := cronUniqueTTL }

/-- What the loop of `fireDueSchedules` makes of a due entry: nothing if the entry is not known or
can never fire again, else the job to enqueue and the time to advance to. -/
def plan (entries : Entries) (wall : Time) (d : DueCronEntry) : Option (Job × Time) :=
  (entries d.id).bind fun ce ↦ (nextFire ce wall d.fireAt).map fun next ↦ (tickJob ce d, next)

/-! ### One scheduler -/

/-- Where a scheduler is in `fireDueSchedules`. -/
inductive Pc
  | idle
  /-- In the loop, before the first of these entries. -/
  | firing (due : List DueCronEntry)
  /-- The job of `d` is in the broker, and `ClaimCron` is next. -/
  | claiming (d : DueCronEntry) (next : Time) (rest : List DueCronEntry)

/-- What a scheduler does in one step. -/
inductive Action
  /-- One round of `seedSchedules`. -/
  | seed (id : String) (wall : Time)
  /-- `DueCron`, at the start of `fireDueSchedules`. -/
  | read
  /-- The next due entry, up to and including `Enqueue`. -/
  | enqueue (wall : Time) (newID : String)
  /-- `ClaimCron`. -/
  | claim
  | crash

/-- The command an action sends to the broker, if it sends one. -/
def command (entries : Entries) (p : Pc) : Action → Option Redis.Op
  | .seed id wall =>
    (entries id).bind fun ce ↦
      let next := ce.schedule wall
      if next = zeroTime then none else some (.scheduleCronIfAbsent id next)
  | .read =>
    match p with
    | .idle => some (.dueCron cronBatch)
    | _ => none
  | .enqueue wall newID =>
    match p with
    | .firing (d :: _) => (plan entries wall d).map fun x ↦ .enqueue newID wall (some x.1)
    | _ => none
  | .claim =>
    match p with
    | .claiming d next _ => some (.claimCron d.id d.fireAt next)
    | _ => none
  | .crash => none

/-- `err == nil || errors.Is(err, ErrDuplicate)` -/
def accepted : Reply → Bool
  | .stored _ => true
  | .failed (.duplicate _ _) => true
  | _ => false

/-- Where the scheduler is after an action, with the reply it got; no reply is an error. -/
def resume (entries : Entries) (p : Pc) (reply : Option Reply) : Action → Pc
  | .seed _ _ => p
  | .read =>
    match p, reply with
    | .idle, some (.due ds) => .firing ds
    | _, _ => p
  | .enqueue wall _ =>
    match p with
    | .firing [] => .idle
    | .firing (d :: rest) =>
      match plan entries wall d, reply with
      -- a duplicate means that the job of this tick is in the broker already
      | some (_, next), some r => if accepted r then .claiming d next rest else .firing rest
      | _, _ => .firing rest
    | _ => p
  | .claim =>
    match p with
    -- whether this scheduler won the tick makes no difference to what it does next
    | .claiming _ _ rest => .firing rest
    | _ => p
  | .crash => .idle

/-- A scheduler gets to `ClaimCron` by an `Enqueue` of the same tick that it got a reply to. -/
theorem resume_eq_claiming {entries : Entries} {p : Pc} {reply : Option Reply} {a : Action}
    {d : DueCronEntry} {next : Time} {rest : List DueCronEntry}
    (h : resume entries p reply a = .claiming d next rest) :
    p = .claiming d next rest ∨ ∃ wall newID j, a = .enqueue wall newID ∧
      p = .firing (d :: rest) ∧ plan entries wall d = some (j, next) ∧ reply ≠ none := by
  cases a with
  | seed id wall => exact .inl h
  | read =>
    simp only [resume] at h
    split at h
    · cases h
    · exact .inl h
  | enqueue wall newID =>
    simp only [resume] at h
    split at h
    · cases h
    · next d' rest' =>
      split at h
      · next j next' r hplan =>
        split_ifs at h
        cases h
        exact .inr ⟨wall, newID, j, rfl, rfl, hplan, by simp⟩
      · cases h
    · exact .inl h
  | claim =>
    simp only [resume] at h
    split at h
    · cases h
    · exact .inl h
  | crash => cases h

/-! ### The system -/

/-- The broker, and what each scheduler is in the middle of. -/
structure System (ι : Type) where
  store : Store
  pc : ι → Pc

/-- One step of the system: of a scheduler, or a command of anybody else. -/
inductive Step (ι : Type)
  | act (i : ι) (a : Action)
  | other (op : Redis.Op)

/-- What becomes of a command. -/
inductive Fate
  /-- It runs, and the reply reaches the caller. -/
  | answered
  /-- It runs, and the caller sees an error. -/
  | lost
  /-- It does not run, and the caller sees an error. -/
  | unsent
  deriving DecidableEq

/-- A step at a server time. -/
structure Input (ι : Type) where
  now : ℤ
  step : Step ι
  fate : Fate

section

variable {ι : Type} (entries : ι → Entries) (cfg : Config)

/-- The command a step sends to the broker, if it sends one. -/
def sent (s : System ι) : Step ι → Option Redis.Op
  | .act i a => command (entries i) (s.pc i) a
  | .other op => some op

/-- The command that runs in a step, with the broker's reply. -/
def ran (s : System ι) (c : Input ι) : Option (Redis.Op × Reply) :=
  if c.fate = .unsent then none
  else (sent entries s c.step).map fun op ↦ (op, (exec cfg s.store ⟨c.now, op⟩).1)

/-- The reply the caller gets; `none` is an error. -/
def told (s : System ι) (c : Input ι) : Option Reply :=
  if c.fate = .answered then (ran entries cfg s c).map Prod.snd else none

variable [DecidableEq ι]

/-- The system after a step. -/
def next (s : System ι) (c : Input ι) : System ι where
  store :=
    match ran entries cfg s c with
    | some (op, _) => (exec cfg s.store ⟨c.now, op⟩).2
    | none => s.store
  pc :=
    match c.step with
    | .act i a =>
      Function.update s.pc i (resume (entries i) (s.pc i) (told entries cfg s c) a)
    | .other _ => s.pc

/-- The schedulers and their broker. -/
def machine : Machine (System ι) (Input ι) where
  init := ⟨.empty, fun _ ↦ .idle⟩
  next := next entries cfg

end

end TaskQueue.Scheduler
