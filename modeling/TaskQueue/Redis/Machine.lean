import TaskQueue.Redis.Broker
import TaskQueue.Observation

/-!
# The Redis broker as a machine

A call is the server time together with an operation and its arguments, and one call is one script
execution. Any number of clients share the store, and a call does not say which of them made it: an
interleaving of their script executions is a sequence of calls.

As for the in-memory broker, `life` is what the store shows of a job's life and `events` reads off a
call what it does to each job. A completed job is shown as done while its hash is retained, and as
nothing once the hash is gone.
-/

namespace TaskQueue.Redis

/-- The operations of the Redis broker. -/
inductive Op
  /-- `newID` is what `NewID` returns if the call asks for one, `wall` the client's clock. -/
  | enqueue (newID : String) (wall : Time) (j : Option Job)
  | dequeue (o : ClaimOpts)
  | ack (workerID jobID : String)
  | nack (workerID jobID : String) (retryAt : Time) (reason : String)
  | kill (workerID jobID reason : String)
  | extend (workerID : String) (jobIDs : List String) (vt : Duration)
  | reap (queue : String) (limit : ℤ)
  | promote (limit : ℤ)
  | scheduleCronIfAbsent (id : String) (fireAt : Time)
  | dueCron (limit : ℤ)
  | claimCron (id : String) (firedAt nextAt : Time)
  | removeCron (id : String)

/-- A call: the server time in milliseconds, and the operation. -/
structure Call where
  now : ℤ
  op : Op

/-- Run one operation on the store its script sees. -/
def run (completedTTL : Duration) (s : Store) (now : ℤ) : Op → Reply × Store
  | .enqueue newID wall j => (enqueue s now newID wall j).map (.of .stored) id
  | .dequeue o => (dequeue s now o).map (.of .claimed) id
  | .ack w i => (ack s now completedTTL w i).map (.of fun _ ↦ .done) id
  | .nack w i r reason => (nack s now w i r reason).map (.of fun _ ↦ .done) id
  | .kill w i reason => (kill s now w i reason).map (.of fun _ ↦ .done) id
  | .extend w ids vt => (extend s now w ids vt).map (.of .lost) id
  | .reap q limit => (reapQueue s now q limit).map (.of .count) id
  | .promote limit => (promote s now limit).map (.of .count) id
  | .scheduleCronIfAbsent i t => (scheduleCronIfAbsent s i t).map (.of .won) id
  | .dueCron limit => (.due (dueCron s now limit), s)
  | .claimCron i t t' => (claimCron s i t t').map (.of .won) id
  | .removeCron i => (.done, removeCron s i)

/-- The store in which a job holds its unique key, if it has a key and a window. -/
def Store.takeKey (s : Store) (now : ℤ) (j : Job) : Store :=
  { s with
    unique :=
      if 0 < uniqueTTL j then
        Function.update s.unique j.uniqueKey (some ⟨j.id, now + uniqueTTL j⟩)
      else s.unique }

/-- **What `Enqueue` can do**: refuse the job as invalid, refuse it as a duplicate of the job that
holds its key, or take the key and store the job. -/
theorem enqueue_outcome (s : Store) (now : ℤ) (newID : String) (wall : Time) (j : Job) :
    (j.queue = "" ∨ j.type = "") ∧ (∃ reason,
      enqueue s now newID wall (some j) = (.error (.invalidTask reason), s)) ∨
    ¬ (j.queue = "" ∨ j.type = "") ∧ ((∃ u, 0 < uniqueTTL (j.assigned newID) ∧
      s.unique j.uniqueKey = some u ∧
      enqueue s now newID wall (some j) = (.error (.duplicate j.uniqueKey u.value), s)) ∨
    (0 < uniqueTTL (j.assigned newID) → s.unique j.uniqueKey = none) ∧ ∃ st,
      enqueue s now newID wall (some j) = (.ok { j.assigned newID with state := st },
        Script.place (s.takeKey now (j.assigned newID)) (jobHash now (j.assigned newID)))) := by
  by_cases hqueue : j.queue = ""
  · exact .inl ⟨.inl hqueue, _, by rw [enqueue, if_pos hqueue]⟩
  by_cases htype : j.type = ""
  · exact .inl ⟨.inr htype, _, by rw [enqueue, if_neg hqueue, if_pos htype]⟩
  refine .inr ⟨not_or.2 ⟨hqueue, htype⟩, ?_⟩
  rw [enqueue, if_neg hqueue, if_neg htype]
  dsimp only
  rw [Script.enqueue, Store.takeKey]
  by_cases hwindow : 0 < uniqueTTL (j.assigned newID)
  · rw [if_pos hwindow, if_pos hwindow]
    rcases hu : s.unique (jobHash now (j.assigned newID)).uniqueKey with _ | u
    · exact .inr ⟨fun _ ↦ hu, _, rfl⟩
    · exact .inl ⟨u, hwindow, hu, rfl⟩
  · rw [if_neg hwindow, if_neg hwindow]
    exact .inr ⟨fun hpos ↦ absurd hpos hwindow, _, rfl⟩

/-- `Dequeue` refuses its arguments, or it passes on what its script returns. -/
theorem claimNext_script (s : Store) (now : ℤ) (o : ClaimOpts) :
    (∃ err, claimNext s now o = (.error err, s)) ∨
    o.workerID ≠ "" ∧ 0 < o.visibilityTimeout ∧ claimNext s now o =
      (Script.dequeue now o.workerID (milliseconds o.visibilityTimeout) o.queues s).map
        (fun r ↦ r.elim (.error .noJob) .ok) fun s ↦ s := by
  rw [claimNext]
  split_ifs with hw hvt
  · exact .inl ⟨_, rfl⟩
  · exact .inl ⟨_, rfl⟩
  · exact .inl ⟨_, rfl⟩
  · refine .inr ⟨hw, not_le.1 hvt, ?_⟩
    rcases Script.dequeue now o.workerID (milliseconds o.visibilityTimeout) o.queues s with
      ⟨_ | h, s'⟩
    · rfl
    · rfl

/-- Setting up a schedule writes the fire times and nothing else. -/
theorem scheduleCronIfAbsent_cron (s : Store) (i : String) (t : Time) :
    ∃ cron, (scheduleCronIfAbsent s i t).2 = { s with cron := cron } := by
  rw [scheduleCronIfAbsent]
  split_ifs
  · exact ⟨s.cron, rfl⟩
  · exact ⟨s.cron, rfl⟩
  · exact ⟨_, rfl⟩

/-- Claiming a tick writes the fire times and nothing else. -/
theorem claimCron_cron (s : Store) (i : String) (t t' : Time) :
    ∃ cron, (claimCron s i t t').2 = { s with cron := cron } := by
  rw [claimCron, Script.cronClaim]
  split_ifs
  · exact ⟨s.cron, rfl⟩
  · rcases s.cron.lookup i with _ | score
    · exact ⟨s.cron, rfl⟩
    · dsimp only
      split_ifs
      · exact ⟨s.cron, rfl⟩
      · exact ⟨_, rfl⟩

variable (cfg : Config)

/-- The store the script of a call sees. -/
def seen (s : Store) (c : Call) : Store := s.live cfg.visible c.now

/-- Run one call. -/
def exec (s : Store) (c : Call) : Reply × Store := run cfg.completedTTL (seen cfg s c) c.now c.op

/-- The broker under any sequence of calls, by any number of clients. -/
def machine : Machine Store Call where
  init := .empty
  next s c := (exec cfg s c).2

/-- What a turn returned. -/
def reply (t : Turn Store Call) : Reply := (exec cfg t.before t.input).1

/-! ### Lives and events -/

/-- The phase a job is in by its hash and the scores beside it. -/
def Store.phase (s : Store) (id : String) (h : Hash) : Phase :=
  match h.state with
  | .pending => .pending
  | .active => .active h.owner h.deadline
  | .scheduled => .scheduled ((s.delayed.lookup id).getD 0)
  | .retry => .retry ((s.retry.lookup id).getD 0)
  | .dead => .dead
  | .none | .completed => .done

/-- The life the store shows for an ID. -/
def Store.life (s : Store) (id : String) : Option Life :=
  (s.job id).map fun e ↦
    { queue := e.hash.queue
      maxAttempts := e.hash.maxAttempts
      attempt := e.hash.attempt
      recoveries := e.hash.recoveries
      phase := s.phase id e.hash }

/-- The life a job starts with. -/
def newLife (h : Hash) : Life where
  queue := h.queue
  maxAttempts := h.maxAttempts
  attempt := h.attempt
  recoveries := h.recoveries
  phase := if h.state = .scheduled then .scheduled h.runAt else .pending

/-- The jobs a `Reap` round acts on, in the order it does. -/
def reaped (s : Store) (now : ℤ) (q : String) (limit : ℤ) : List String :=
  if limit ≤ 0 then []
  else if !Script.reads limit then []
  else Script.dueMembers (s.active q) now limit

/-- The jobs a `Promote` acts on, in the order it does. -/
def promoted (s : Store) (now limit : ℤ) : List String :=
  if limit ≤ 0 then []
  else if !Script.reads limit then []
  else
    let due := Script.dueMembers s.delayed now limit
    due ++ Script.dueMembers s.retry now (limit - due.length)

/-- The jobs an `Extend` renews. -/
def renewed (s : Store) (workerID : String) (ids : List String) : List String :=
  ids.filter fun i ↦ (Script.fence s workerID i).isOk

/-- What an operation does to each job. -/
def eventsOf (completedTTL : Duration) (s : Store) (now : ℤ) (op : Op) : List (String × Event) :=
  match op, (run completedTTL s now op).1 with
  | .enqueue _ _ _, .stored j => [(j.id, .enqueued (newLife (jobHash now j)))]
  | .dequeue o, _ =>
    -- read off the script: `Dequeue` still fails on a claimed hash without an ID
    match (claimNext s now o).1 with
    | .ok h => [(h.id, .claimed h.owner h.deadline)]
    | .error _ => []
  | .ack w i, .done => [(i, .acked w)]
  | .nack w i r _, .done => [(i, .nacked w (msFromTime r))]
  | .kill w i _, .done => [(i, .killed w)]
  | .extend w ids vt, .lost _ =>
    (renewed s w ids).map fun i ↦ (i, .extended w (now + milliseconds vt))
  | .reap q limit, _ => (reaped s now q limit).map fun i ↦ (i, .reaped now)
  | .promote limit, _ => (promoted s now limit).map fun i ↦ (i, .promoted now)
  | _, _ => []

/-- The events of a call. -/
def events (s : Store) (c : Call) : List (String × Event) :=
  eventsOf cfg.completedTTL (seen cfg s c) c.now c.op

/-- What it takes for a call to make an event happen to a job. -/
def Did (s : Store) (c : Call) (id : String) : Event → Prop
  | .enqueued l => ∃ newID wall o j, c.op = .enqueue newID wall o ∧
      (exec cfg s c).1 = .stored j ∧ j.id = id ∧ newLife (jobHash c.now j) = l
  | .claimed w d => ∃ o h, c.op = .dequeue o ∧ (claimNext (seen cfg s c) c.now o).1 = .ok h ∧
      h.id = id ∧ h.owner = w ∧ h.deadline = d
  | .acked w => c.op = .ack w id ∧ (exec cfg s c).1 = .done
  | .nacked w r => ∃ t reason, c.op = .nack w id t reason ∧ (exec cfg s c).1 = .done ∧
      msFromTime t = r
  | .killed w => ∃ reason, c.op = .kill w id reason ∧ (exec cfg s c).1 = .done
  | .extended w d => ∃ ids vt lost, c.op = .extend w ids vt ∧ (exec cfg s c).1 = .lost lost ∧
      id ∈ renewed (seen cfg s c) w ids ∧ c.now + milliseconds vt = d
  | .reaped now => ∃ q limit, c.op = .reap q limit ∧
      id ∈ reaped (seen cfg s c) c.now q limit ∧ c.now = now
  | .promoted now => ∃ limit, c.op = .promote limit ∧
      id ∈ promoted (seen cfg s c) c.now limit ∧ c.now = now
  | .replayed => False
  | .purged => False

variable {cfg}

/-- `events` lists exactly what the call did. -/
theorem mem_events_iff {s : Store} {c : Call} {id : String} {e : Event} :
    (id, e) ∈ events cfg s c ↔ Did cfg s c id e := by
  constructor
  · intro hmem
    unfold events eventsOf at hmem
    split at hmem
    · next newID wall o j hop hreply =>
      obtain ⟨rfl, rfl⟩ := Prod.mk.inj (List.mem_singleton.1 hmem)
      exact ⟨newID, wall, o, j, hop, hreply, rfl, rfl⟩
    · next o hop =>
      split at hmem
      · next h hh =>
        obtain ⟨rfl, rfl⟩ := Prod.mk.inj (List.mem_singleton.1 hmem)
        exact ⟨o, h, hop, hh, rfl, rfl, rfl⟩
      · cases hmem
    · next hop hreply =>
      obtain ⟨rfl, rfl⟩ := Prod.mk.inj (List.mem_singleton.1 hmem)
      exact ⟨hop, hreply⟩
    · next hop hreply =>
      obtain ⟨rfl, rfl⟩ := Prod.mk.inj (List.mem_singleton.1 hmem)
      exact ⟨_, _, hop, hreply, rfl⟩
    · next reason hop hreply =>
      obtain ⟨rfl, rfl⟩ := Prod.mk.inj (List.mem_singleton.1 hmem)
      exact ⟨reason, hop, hreply⟩
    · next hop hreply =>
      obtain ⟨i, hi, ⟨⟩⟩ := List.mem_map.1 hmem
      exact ⟨_, _, _, hop, hreply, hi, rfl⟩
    · next hop =>
      obtain ⟨i, hi, ⟨⟩⟩ := List.mem_map.1 hmem
      exact ⟨_, _, hop, hi, rfl⟩
    · next hop =>
      obtain ⟨i, hi, ⟨⟩⟩ := List.mem_map.1 hmem
      exact ⟨_, hop, hi, rfl⟩
    · cases hmem
  · cases e with
    | enqueued l =>
      rintro ⟨newID, wall, o, j, hop, hreply, rfl, rfl⟩
      rw [exec, hop] at hreply
      simp [events, eventsOf, hop, hreply]
    | claimed w d =>
      rintro ⟨o, h, hop, hh, rfl, rfl, rfl⟩
      simp [events, eventsOf, hop, hh]
    | acked w =>
      rintro ⟨hop, hreply⟩
      rw [exec, hop] at hreply
      simp [events, eventsOf, hop, hreply]
    | nacked w r =>
      rintro ⟨t, reason, hop, hreply, rfl⟩
      rw [exec, hop] at hreply
      simp [events, eventsOf, hop, hreply]
    | killed w =>
      rintro ⟨reason, hop, hreply⟩
      rw [exec, hop] at hreply
      simp [events, eventsOf, hop, hreply]
    | extended w d =>
      rintro ⟨ids, vt, lost, hop, hreply, hid, rfl⟩
      rw [exec, hop] at hreply
      simpa [events, eventsOf, hop, hreply] using hid
    | reaped now =>
      rintro ⟨q, limit, hop, hid, rfl⟩
      simpa [events, eventsOf, hop] using hid
    | promoted now =>
      rintro ⟨limit, hop, hid, rfl⟩
      simpa [events, eventsOf, hop] using hid
    | replayed => exact False.elim
    | purged => exact False.elim

end TaskQueue.Redis
