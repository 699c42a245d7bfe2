import TaskQueue.Memory.Broker
import TaskQueue.Lifecycle
import TaskQueue.Transition.Run

/-!
# The in-memory broker as a machine

A call is the time the clock reads together with an operation and its arguments. `exec` runs one
call; `machine` is the broker under any sequence of them.

`events` reads off a call what it does to each job, as the events of the lifecycle automaton, from
the state the call finds. It is the only place where the two vocabularies meet: that the reading is
right is `TaskQueue.Memory.Location`.
-/

namespace TaskQueue.Memory

/-- The operations of the in-memory broker. -/
inductive Op
  /-- `newID` is what `NewID` returns if the call asks for one. -/
  | enqueue (newID : String) (j : Option Job)
  | dequeue (o : ClaimOpts)
  | ack (workerID jobID : String)
  | nack (workerID jobID : String) (retryAt : Time) (reason : String)
  | kill (workerID jobID reason : String)
  | extend (workerID : String) (jobIDs : List String) (vt : Duration)
  | close
  | reap (queues : List String) (limit : ℤ)
  | promote (limit : ℤ)
  | heartbeat (w : WorkerInfo) (ttl : Duration)
  | acquireLease (name owner : String) (ttl : Duration)
  | releaseLease (name owner : String)
  | stats
  | listDead (offset limit : ℤ)
  | retryDead (ids : List String)
  | purgeDead (ids : List String)
  | listWorkers
  | scheduleCronIfAbsent (id : String) (fireAt : Time)
  | dueCron (limit : ℤ)
  | claimCron (id : String) (firedAt nextAt : Time)
  | removeCron (id : String)

/-- A call: the time the broker's clock reads, and the operation. -/
structure Call where
  now : Time
  op : Op

/-- Run one call. -/
def exec (b : Broker) (c : Call) : Reply × Broker :=
  match c.op with
  | .enqueue newID j => (b.enqueue c.now newID j).map (.of .stored) id
  | .dequeue o => (b.dequeue c.now o).map (.of .claimed) id
  | .ack w i => (b.ack w i).map (.of fun _ ↦ .done) id
  | .nack w i r reason => (b.nack w i r reason).map (.of fun _ ↦ .done) id
  | .kill w i reason => (b.kill w i reason).map (.of fun _ ↦ .done) id
  | .extend w ids vt => (b.extend c.now w ids vt).map (.of .lost) id
  | .close => (.done, b.close)
  | .reap queues limit => (b.reap c.now queues limit).map (.of .count) id
  | .promote limit => (b.promote c.now limit).map (.of .count) id
  | .heartbeat w ttl => (b.heartbeat c.now w ttl).map (.of fun _ ↦ .done) id
  | .acquireLease n o ttl => (b.acquireLease c.now n o ttl).map (.of .won) id
  | .releaseLease n o => (b.releaseLease n o).map (.of fun _ ↦ .done) id
  | .stats => (.of .snapshot (b.stats c.now), b)
  | .listDead offset limit => (.of .deadJobs (b.listDead offset limit), b)
  | .retryDead ids => (b.retryDead ids).map (.of .count) id
  | .purgeDead ids => (b.purgeDead ids).map (.of .count) id
  | .listWorkers => (.of .workers (b.listWorkers c.now), b)
  | .scheduleCronIfAbsent i t => (b.scheduleCronIfAbsent i t).map (.of .won) id
  | .dueCron limit => (.of .due (b.dueCron c.now limit), b)
  | .claimCron i t t' => (b.claimCron i t t').map (.of .won) id
  | .removeCron i => (b.removeCron i).map (.of fun _ ↦ .done) id

/-- The broker under any sequence of calls. -/
def machine : Machine Broker Call where
  init := new
  next b c := (exec b c).2

/-- What a turn returned. -/
def reply (t : Turn Broker Call) : Reply := (exec t.before t.input).1

/-! ### What a call does to each job -/

namespace Broker

variable (b : Broker) (now : Time)

/-- The jobs a `Reap` acts on, in the order it does. -/
def reaped (queues : List String) (limit : ℤ) : List String :=
  if limit ≤ 0 ∨ b.closed then [] else (Table.keysOf (b.expired now queues)).take limit.toNat

/-- The jobs a `Promote` acts on, in the order it does. -/
def promoted (limit : ℤ) : List String :=
  if limit ≤ 0 ∨ b.closed then []
  else ((b.dueJobs now).take limit.toNat).map fun c ↦ (ofLex c.1).2

/-- The jobs an `Extend` renews. -/
def renewed (workerID : String) (ids : List String) : List String :=
  ids.filter fun i ↦ (b.ownedActive workerID i).isOk

/-- The jobs the loop of `PurgeDead` removes; an ID that is named twice is gone the second time. -/
def purges : List String → Broker → List String
  | [], _ => []
  | id :: ids, b =>
    match b.jobs.lookup id with
    | none => purges ids b
    | some _ => id :: purges ids (b.purge id)

end Broker

/-- The life a job starts with. -/
def newLife (now : Time) (j : Job) : Life where
  queue := j.queue
  maxAttempts := j.maxAttempts
  attempt := j.attempt
  recoveries := j.recoveries
  phase := if now < j.runAt then .scheduled j.runAt else .pending

/-- The events of a call. -/
def events (b : Broker) (c : Call) : List (String × Event) :=
  match c.op, (exec b c).1 with
  | .enqueue _ _, .stored j => [(j.id, .enqueued (newLife c.now j))]
  | .dequeue _, .claimed j => [(j.id, .claimed j.owner j.deadline)]
  | .ack w i, .done => [(i, .acked w)]
  | .nack w i r _, .done => [(i, .nacked w r)]
  | .kill w i _, .done => [(i, .killed w)]
  | .extend w ids vt, .lost _ => (b.renewed w ids).map fun i ↦ (i, .extended w (c.now + vt))
  | .reap queues limit, .count _ => (b.reaped c.now queues limit).map fun i ↦ (i, .reaped c.now)
  | .promote limit, .count _ => (b.promoted c.now limit).map fun i ↦ (i, .promoted c.now)
  | .retryDead ids, .count _ => (b.selectDeadLocked ids).map fun i ↦ (i, .replayed)
  | .purgeDead ids, .count _ => (Broker.purges (b.selectDeadLocked ids) b).map fun i ↦ (i, .purged)
  | _, _ => []

/-- What it takes for a call to make an event happen to a job. -/
def Did (b : Broker) (c : Call) (id : String) : Event → Prop
  | .enqueued l => ∃ newID o j, c.op = .enqueue newID o ∧ (exec b c).1 = .stored j ∧ j.id = id ∧
      newLife c.now j = l
  | .claimed w d => ∃ o j, c.op = .dequeue o ∧ (exec b c).1 = .claimed j ∧ j.id = id ∧
      j.owner = w ∧ j.deadline = d
  | .acked w => c.op = .ack w id ∧ (exec b c).1 = .done
  | .nacked w r => ∃ reason, c.op = .nack w id r reason ∧ (exec b c).1 = .done
  | .killed w => ∃ reason, c.op = .kill w id reason ∧ (exec b c).1 = .done
  | .extended w d => ∃ ids vt lost, c.op = .extend w ids vt ∧ (exec b c).1 = .lost lost ∧
      id ∈ b.renewed w ids ∧ c.now + vt = d
  | .reaped now => ∃ queues limit n, c.op = .reap queues limit ∧ (exec b c).1 = .count n ∧
      id ∈ b.reaped c.now queues limit ∧ c.now = now
  | .promoted now => ∃ limit n, c.op = .promote limit ∧ (exec b c).1 = .count n ∧
      id ∈ b.promoted c.now limit ∧ c.now = now
  | .replayed => ∃ ids n, c.op = .retryDead ids ∧ (exec b c).1 = .count n ∧
      id ∈ b.selectDeadLocked ids
  | .purged => ∃ ids n, c.op = .purgeDead ids ∧ (exec b c).1 = .count n ∧
      id ∈ Broker.purges (b.selectDeadLocked ids) b

/-- `events` lists exactly what the call did. -/
theorem mem_events_iff {b : Broker} {c : Call} {id : String} {e : Event} :
    (id, e) ∈ events b c ↔ Did b c id e := by
  constructor
  · intro hmem
    unfold events at hmem
    split at hmem
    · next newID o j hop hreply =>
      obtain ⟨rfl, rfl⟩ := Prod.mk.inj (List.mem_singleton.1 hmem)
      exact ⟨newID, o, j, hop, hreply, rfl, rfl⟩
    · next o j hop hreply =>
      obtain ⟨rfl, rfl⟩ := Prod.mk.inj (List.mem_singleton.1 hmem)
      exact ⟨o, j, hop, hreply, rfl, rfl, rfl⟩
    · next hop hreply =>
      obtain ⟨rfl, rfl⟩ := Prod.mk.inj (List.mem_singleton.1 hmem)
      exact ⟨hop, hreply⟩
    · next reason hop hreply =>
      obtain ⟨rfl, rfl⟩ := Prod.mk.inj (List.mem_singleton.1 hmem)
      exact ⟨reason, hop, hreply⟩
    · next reason hop hreply =>
      obtain ⟨rfl, rfl⟩ := Prod.mk.inj (List.mem_singleton.1 hmem)
      exact ⟨reason, hop, hreply⟩
    · next hop hreply =>
      obtain ⟨i, hi, ⟨⟩⟩ := List.mem_map.1 hmem
      exact ⟨_, _, _, hop, hreply, hi, rfl⟩
    · next hop hreply =>
      obtain ⟨i, hi, ⟨⟩⟩ := List.mem_map.1 hmem
      exact ⟨_, _, _, hop, hreply, hi, rfl⟩
    · next hop hreply =>
      obtain ⟨i, hi, ⟨⟩⟩ := List.mem_map.1 hmem
      exact ⟨_, _, hop, hreply, hi, rfl⟩
    · next hop hreply =>
      obtain ⟨i, hi, ⟨⟩⟩ := List.mem_map.1 hmem
      exact ⟨_, _, hop, hreply, hi⟩
    · next hop hreply =>
      obtain ⟨i, hi, ⟨⟩⟩ := List.mem_map.1 hmem
      exact ⟨_, _, hop, hreply, hi⟩
    · cases hmem
  · cases e with
    | enqueued l =>
      rintro ⟨newID, o, j, hop, hreply, rfl, rfl⟩
      simp [events, hop, hreply]
    | claimed w d =>
      rintro ⟨o, j, hop, hreply, rfl, rfl, rfl⟩
      simp [events, hop, hreply]
    | acked w =>
      rintro ⟨hop, hreply⟩
      simp [events, hop, hreply]
    | nacked w r =>
      rintro ⟨reason, hop, hreply⟩
      simp [events, hop, hreply]
    | killed w =>
      rintro ⟨reason, hop, hreply⟩
      simp [events, hop, hreply]
    | extended w d =>
      rintro ⟨ids, vt, lost, hop, hreply, hid, rfl⟩
      simpa [events, hop, hreply] using hid
    | reaped now =>
      rintro ⟨queues, limit, n, hop, hreply, hid, rfl⟩
      simpa [events, hop, hreply] using hid
    | promoted now =>
      rintro ⟨limit, n, hop, hreply, hid, rfl⟩
      simpa [events, hop, hreply] using hid
    | replayed =>
      rintro ⟨ids, n, hop, hreply, hid⟩
      simpa [events, hop, hreply] using hid
    | purged =>
      rintro ⟨ids, n, hop, hreply, hid⟩
      simpa [events, hop, hreply] using hid

end TaskQueue.Memory
