import TaskQueue.Redis.Recovery
import TaskQueue.Redis.Redelivery
import TaskQueue.Scheduler.Model
import TaskQueue.Server.Mux
import TaskQueue.Server.Pool

/-!
# Servers and their Redis

`TaskQueue.Server` is one worker process with a broker that may answer anything, and
`TaskQueue.Redis` is the broker with clients that may call anything. Here they are put together: any
number of servers, each with its registry of handlers, over one Redis. A `Dequeue`, a report and an
`Extend` of a server are executed in Redis, and the server goes on with what it is told.

**Commands.** A command is answered, or it is executed and the answer is lost, or it is not executed
at all; in the last two cases the server sees an error. The context of a `Dequeue` or `Extend` that
is cancelled is one of these.

**What is free.** Everything that is free about a server stays free, except what Redis answers: how
its goroutines interleave, when it is cancelled, and how its handlers end. Other clients enqueue,
reap, promote and look after the schedules. A process may die at any moment, and may be started
again under the same worker ID.

Inside every run of the cluster there is a run of the broker (`run_calls`), and for each server a
run since it was last started (`run_worker`); so what is proved about each of the two holds here.
-/

namespace TaskQueue.Cluster

open Redis (Store Call Op Config exec)
open Scheduler (Fate)
open Server (Worker)

/-- A server: its configuration, and the handlers it was given. -/
structure Node (H : Type) where
  config : Server.Config
  visibilityTimeout : Duration
  mux : Mux H

/-- Redis and the servers. -/
structure System (ι : Type) where
  store : Store
  worker : ι → Worker

/-- What a server does. -/
inductive Act
  /-- A step without a command. -/
  | own (a : Server.Step)
  /-- `Dequeue`, with the queues in the order of this poll. -/
  | poll (queues : List String)
  /-- The report on an execution, at the time of the server. -/
  | report (k : ℕ) (wall : Time)
  /-- `Extend` -/
  | renew

/-- What happens. -/
inductive Move (ι : Type)
  /-- Another client calls, at the time of Redis. -/
  | call (c : Call)
  /-- A server does something; if it sends a command, it is executed at `now` if at all. -/
  | act (i : ι) (a : Act) (now : ℤ) (fate : Fate)
  /-- A process dies, and is started again. -/
  | crash (i : ι)

/-- The steps of a server that need no broker. -/
def isLocal : Server.Step → Bool
  | .fetch (.dequeue _) => false
  | .job _ (.report _) => false
  | .renew (.extended _) => false
  | .renew .failed => false
  | _ => true

/-- The calls that only workers make. -/
def isWorkers : Op → Bool
  | .dequeue _ => true
  | .ack _ _ => true
  | .nack _ _ _ _ => true
  | .kill _ _ _ => true
  | .extend _ _ _ => true
  | _ => false

/-- The call of a report. -/
def reportOp : Server.Report → Op
  | .ack w id => .ack w id
  | .nack w id retryAt reason => .nack w id retryAt reason
  | .kill w id reason => .kill w id reason

/-- What `Dequeue` returns, an error if there is no answer. -/
def dequeued : Option Reply → Server.Dequeued
  | some (.claimed j) => .job j
  | some (.failed .noJob) => .noJob
  | _ => .failed

/-- What `Extend` returns, an error if there is no answer. -/
def extended : Option Reply → Server.RenewStep
  | some (.lost ids) => .extended ids
  | _ => .failed

/-- The step of a server that got this answer to its command. -/
def stepOf (answer : Option Reply) : Act → Server.Step
  | .own a => a
  | .poll _ => .fetch (.dequeue (dequeued answer))
  | .report k wall => .job k (.report wall)
  | .renew => .renew (extended answer)

section

variable {H ι : Type} (nodes : ι → Node H) (cfg : Config)

/-- The command of a server. -/
def opOf (n : Node H) (w : Worker) : Act → Option Op
  | .own _ => none
  | .poll queues => some (.dequeue ⟨n.config.workerID, queues, n.visibilityTimeout⟩)
  | .report k wall =>
    w.executions[k]?.bind fun e ↦ e.stage.error?.map fun err ↦
      reportOp (Server.report n.config wall e.job err)
  | .renew =>
    match w.renewal with
    | .extending ids _ => some (.extend n.config.workerID ids n.visibilityTimeout)
    | _ => none

/-- The call that a move executes, if any. -/
def callOf (s : System ι) : Move ι → Option Call
  | .call c => some c
  | .act i a now fate =>
    if fate = .unsent then none else (opOf (nodes i) (s.worker i) a).map fun op ↦ ⟨now, op⟩
  | .crash _ => none

/-- What the server is told. -/
def answer (s : System ι) (i : ι) (a : Act) (now : ℤ) (fate : Fate) : Option Reply :=
  if fate = .answered then
    (opOf (nodes i) (s.worker i) a).map fun op ↦ (exec cfg s.store ⟨now, op⟩).1
  else none

/-- The step that a server takes. -/
def taken (s : System ι) (i : ι) (a : Act) (now : ℤ) (fate : Fate) : Server.Step :=
  stepOf (answer nodes cfg s i a now fate) a

variable [DecidableEq ι]

/-- The servers after a move. -/
def workersAfter (s : System ι) : Move ι → ι → Worker
  | .call _ => s.worker
  | .act i a now fate =>
    Function.update s.worker i
      ((Server.machine (nodes i).config).next (s.worker i) (taken nodes cfg s i a now fate))
  | .crash i => Function.update s.worker i .init

/-- The system after a move. -/
def next (s : System ι) (m : Move ι) : System ι where
  store := (callOf nodes s m).elim s.store fun c ↦ (exec cfg s.store c).2
  worker := workersAfter nodes cfg s m

/-- The cluster. -/
def machine : Machine (System ι) (Move ι) where
  init := ⟨.empty, fun _ ↦ .init⟩
  next := next nodes cfg

/-- The run of the broker inside a run of the cluster. -/
def calls (h : List (Turn (System ι) (Move ι))) : List (Turn Store Call) :=
  h.filterMap fun t ↦ (callOf nodes t.before t.input).map fun c ↦ ⟨t.before.store, c⟩

/-- The run of one server since it was last started. -/
def past (i : ι) : List (Turn (System ι) (Move ι)) → List (Turn Worker Server.Step)
  | [] => []
  | t :: h =>
    match t.input with
    | .call _ => past i h
    | .act j a now fate =>
      if j = i then ⟨t.before.worker j, taken nodes cfg t.before j a now fate⟩ :: past i h
      else past i h
    | .crash j => if j = i then [] else past i h

variable (quote : String → String)

/-- What may happen next. Other clients make no calls of workers. A server takes a step that is
possible for it, with Redis where it needs Redis, and a handler ends as the registry says. IDs are
new, and the time of Redis does not go back. -/
def Works (h : List (Turn (System ι) (Move ι))) (s : System ι) : Move ι → Prop
  | .call c => Redis.Named cfg (calls nodes h) s.store c ∧ isWorkers c.op = false
  | .act i a now fate =>
    (∀ t ∈ calls nodes h, t.input.now ≤ now) ∧
    Server.Possible (nodes i).config [] (s.worker i) (taken nodes cfg s i a now fate) ∧
    (∀ b, a = .own b → isLocal b = true) ∧
    ∀ k o, a = .own (.job k (.handle o)) → ∃ e ends, (s.worker i).executions[k]? = some e ∧
      o = (nodes i).mux.processTask quote ends e.job
  | .crash _ => True

/-! ### The broker and the servers of a run -/

variable {nodes cfg quote} {h : List (Turn (System ι) (Move ι))} {s : System ι} {m : Move ι}
  {t : Turn (System ι) (Move ι)} {i : ι}

omit [DecidableEq ι] in
theorem calls_cons (t : Turn (System ι) (Move ι)) (h : List (Turn (System ι) (Move ι))) :
    calls nodes (t :: h) =
      ((callOf nodes t.before t.input).map fun c ↦ ⟨t.before.store, c⟩).toList ++
        calls nodes h := by
  rw [calls, List.filterMap_cons]
  rcases callOf nodes t.before t.input with - | c
  · rfl
  · rfl

omit [DecidableEq ι] in
theorem calls_of_none (hnone : callOf nodes s m = none) :
    calls nodes (⟨s, m⟩ :: h) = calls nodes h := by
  rw [calls_cons, hnone]
  rfl

omit [DecidableEq ι] in
theorem calls_of_some {c : Call} (hc : callOf nodes s m = some c) :
    calls nodes (⟨s, m⟩ :: h) = ⟨s.store, c⟩ :: calls nodes h := by
  rw [calls_cons, hc]
  rfl

omit [DecidableEq ι] in
/-- **The commands of a server**: it polls, it reports on an execution whose handler has ended, or
it renews the leases it has read. -/
theorem opOf_cases {n : Node H} {w : Worker} {a : Act} {op : Op} (hop : opOf n w a = some op) :
    (∃ queues, a = .poll queues ∧
      op = .dequeue ⟨n.config.workerID, queues, n.visibilityTimeout⟩) ∨
    (∃ k wall e err, a = .report k wall ∧ w.executions[k]? = some e ∧ e.stage = .returned err ∧
      op = reportOp (Server.report n.config wall e.job err)) ∨
    ∃ ids failures, a = .renew ∧ w.renewal = .extending ids failures ∧
      op = .extend n.config.workerID ids n.visibilityTimeout := by
  cases a with
  | own a => cases hop
  | poll queues => exact .inl ⟨queues, rfl, (Option.some.inj hop).symm⟩
  | report k wall =>
    obtain ⟨e, he, hop⟩ := Option.bind_eq_some_iff.1 hop
    obtain ⟨err, herr, rfl⟩ := Option.map_eq_some_iff.1 hop
    refine .inr (.inl ⟨k, wall, e, err, rfl, he, ?_, rfl⟩)
    rcases hst : e.stage with - | - | - | err' | - | - | - | - <;> rw [hst] at herr <;> cases herr
    rfl
  | renew =>
    rw [opOf] at hop
    split at hop
    · next ids failures hrenewal =>
      exact .inr (.inr ⟨ids, failures, rfl, hrenewal, (Option.some.inj hop).symm⟩)
    · cases hop

/-- A report is an `Ack`, a `Nack` or a `Kill` of the job. -/
theorem reportOp_cases (sc : Server.Config) (wall : Time) (j : Job)
    (err : Option Server.HandlerError) :
    reportOp (Server.report sc wall j err) = .ack sc.workerID j.id ∨
    (∃ retryAt reason, reportOp (Server.report sc wall j err) =
      .nack sc.workerID j.id retryAt reason) ∨
    ∃ reason, reportOp (Server.report sc wall j err) = .kill sc.workerID j.id reason := by
  rcases err with - | err
  · exact .inl rfl
  · rw [Server.report]
    split_ifs
    · exact .inr (.inr ⟨_, rfl⟩)
    · exact .inr (.inl ⟨_, _, rfl⟩)

omit [DecidableEq ι] in
/-- Servers make the calls of workers. -/
theorem isWorkers_of_opOf {n : Node H} {w : Worker} {a : Act} {op : Op}
    (hop : opOf n w a = some op) : isWorkers op = true := by
  rcases opOf_cases hop with ⟨queues, -, rfl⟩ | ⟨k, wall, e, err, -, -, -, rfl⟩ |
    ⟨ids, failures, -, -, rfl⟩
  · rfl
  · rcases reportOp_cases n.config wall e.job err with heq | ⟨_, _, heq⟩ | ⟨_, heq⟩ <;>
    · rw [heq]
      rfl
  · rfl

omit [DecidableEq ι] in
/-- And nobody else does. -/
theorem act_of_call {c : Call} (hok : Works nodes cfg quote h s m) (hc : callOf nodes s m = some c)
    (hworkers : isWorkers c.op = true) : ∃ j a fate, m = .act j a c.now fate ∧ fate ≠ .unsent ∧
      opOf (nodes j) (s.worker j) a = some c.op := by
  cases m with
  | call c' =>
    obtain rfl := Option.some.inj hc
    rw [hok.2] at hworkers
    cases hworkers
  | act j a now fate =>
    rw [callOf] at hc
    split_ifs at hc with hfate
    obtain ⟨op, hop, rfl⟩ := Option.map_eq_some_iff.1 hc
    exact ⟨j, a, fate, rfl, hfate, hop⟩
  | crash j => cases hc

omit [DecidableEq ι] in
/-- What a move executes is admissible. -/
theorem named_of_works (hok : Works nodes cfg quote h s m) {c : Call}
    (hc : callOf nodes s m = some c) : Redis.Named cfg (calls nodes h) s.store c := by
  cases m with
  | call c' =>
    obtain rfl := Option.some.inj hc
    exact hok.1
  | act i a now fate =>
    rw [callOf] at hc
    split_ifs at hc
    obtain ⟨op, hop, rfl⟩ := Option.map_eq_some_iff.1 hc
    have hworkers := isWorkers_of_opOf hop
    refine ⟨⟨hok.1, fun newID wall j heq ↦ ?_⟩, fun newID wall o heq ↦ ?_⟩ <;>
    · rw [show op = _ from heq] at hworkers
      cases hworkers
  | crash i => cases hc

/-- **Inside every run of the cluster there is a run of the broker.** -/
theorem run_calls (hrun : (machine nodes cfg).Run (Works nodes cfg quote) h s) :
    (Redis.machine cfg).Run (Redis.Named cfg) (calls nodes h) s.store := by
  refine hrun.invariant (P := fun h s ↦ (Redis.machine cfg).Run (Redis.Named cfg) (calls nodes h)
    s.store) .start fun h s m _ hprev hok ↦ ?_
  show (Redis.machine cfg).Run (Redis.Named cfg) (calls nodes (⟨s, m⟩ :: h))
    (next nodes cfg s m).store
  rw [calls_cons, next]
  rcases hc : callOf nodes s m with - | c
  · exact hprev
  · exact .step c hprev (named_of_works hok hc)

theorem store_of_none (hnone : callOf nodes s m = none) :
    (next nodes cfg s m).store = s.store := by
  rw [next, hnone]
  rfl

theorem store_of_some {c : Call} (hc : callOf nodes s m = some c) :
    (next nodes cfg s m).store = (exec cfg s.store c).2 := by
  rw [next, hc]
  rfl

theorem fresh_calls (hrun : (machine nodes cfg).Run (Works nodes cfg quote) h s) :
    (Redis.machine cfg).Run (Redis.Fresh cfg) (calls nodes h) s.store :=
  Redis.Admissible.run (Redis.Named.run (run_calls hrun))

theorem located_of_run (hrun : (machine nodes cfg).Run (Works nodes cfg quote) h s) :
    s.store.Located := Redis.located_of_run (Redis.Named.run (run_calls hrun))

theorem safe_of_works (hrun : (machine nodes cfg).Run (Works nodes cfg quote) h s)
    (hok : Works nodes cfg quote h s m) {c : Call} (hc : callOf nodes s m = some c) :
    Redis.Safe (Redis.seen cfg s.store c) c.op :=
  (named_of_works hok hc).admissible.safe_of_run (Redis.Named.run (run_calls hrun))

omit [DecidableEq ι] in
/-- A turn of the broker is one of the cluster. -/
theorem mem_calls {u : Turn Store Call} (hu : u ∈ calls nodes h) : ∃ newer t older,
    h = newer ++ t :: older ∧ callOf nodes t.before t.input = some u.input ∧
      t.before.store = u.before := by
  obtain ⟨t, ht, hcall⟩ := List.mem_filterMap.1 hu
  obtain ⟨c, hc, rfl⟩ := Option.map_eq_some_iff.1 hcall
  obtain ⟨newer, older, rfl⟩ := List.append_of_mem ht
  exact ⟨newer, t, older, rfl, hc, rfl⟩

theorem past_act (i j : ι) (a : Act) (now : ℤ) (fate : Fate) :
    past nodes cfg i (⟨s, .act j a now fate⟩ :: h) =
      if j = i then ⟨s.worker j, taken nodes cfg s j a now fate⟩ :: past nodes cfg i h
      else past nodes cfg i h := rfl

theorem past_crash (i j : ι) : past nodes cfg i (⟨s, .crash j⟩ :: h) =
    if j = i then [] else past nodes cfg i h := rfl

/-- **And one of every server since it was last started.** -/
theorem run_worker (hrun : (machine nodes cfg).Run (Works nodes cfg quote) h s) (i : ι) :
    Server.Run (nodes i).config (past nodes cfg i h) (s.worker i) := by
  refine hrun.invariant (P := fun h s ↦ Server.Run (nodes i).config (past nodes cfg i h)
    (s.worker i)) .start fun h s m _ hprev hok ↦ ?_
  show Server.Run (nodes i).config (past nodes cfg i (⟨s, m⟩ :: h)) (workersAfter nodes cfg s m i)
  cases m with
  | call c => exact hprev
  | act j a now fate =>
    by_cases hij : j = i
    · subst hij
      rw [past_act, if_pos rfl, workersAfter, Function.update_self]
      exact .step _ hprev hok.2.1
    · rw [past_act, if_neg hij, workersAfter, Function.update_of_ne (Ne.symm hij)]
      exact hprev
  | crash j =>
    by_cases hij : j = i
    · subst hij
      rw [past_crash, if_pos rfl, workersAfter, Function.update_self]
      exact .start
    · rw [past_crash, if_neg hij, workersAfter, Function.update_of_ne (Ne.symm hij)]
      exact hprev

end

end TaskQueue.Cluster
