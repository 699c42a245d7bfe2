import TaskQueue.Memory.Services

/-!
# Calls that fail, and calls on a closed broker

Every operation of the in-memory broker checks before it writes, with one exception: `Dequeue` takes
the head off a ready list before it looks the job up, and goes on with the next queue if there is no
such job. That the state is nevertheless **exactly as before** whenever a call returns an error, and
that `Dequeue` finds a job whenever a listed queue has one, rests on the ready lists naming stored
jobs only, in every reachable state.

A closed broker refuses what would write, so `Close` is the last call that changes anything.
-/

namespace TaskQueue.Memory

open Broker

/-- The call changes nothing if it fails, or if the broker is closed. -/
structure Guarded {α : Type} (b : Broker) (r : Except Err α × Broker) : Prop where
  failed : ∀ e, r.1 = .error e → r.2 = b
  closed : b.closed = true → r.2 = b

namespace Guarded

variable {α : Type} {b : Broker}

theorem refused (e : Err) : Guarded (α := α) b (.error e, b) := ⟨fun _ _ ↦ rfl, fun _ ↦ rfl⟩

theorem same (a : α) : Guarded b (.ok a, b) := ⟨fun _ _ ↦ rfl, fun _ ↦ rfl⟩

theorem accepted (hopen : ¬ b.closed = true) (a : α) (b' : Broker) : Guarded b (.ok a, b') :=
  ⟨fun _ he ↦ (nomatch he), fun hclosed ↦ absurd hclosed hopen⟩

/-- As a call of the machine. -/
theorem reply {r : Except Err α × Broker} (h : Guarded b r) {f : α → Reply}
    (hf : ∀ a e, f a ≠ .failed e) :
    (∀ e, (r.map (Reply.of f) id).1 = .failed e → (r.map (Reply.of f) id).2 = b) ∧
      (b.closed = true → (r.map (Reply.of f) id).2 = b) := by
  refine ⟨fun e he ↦ ?_, h.closed⟩
  obtain ⟨e' | a, b'⟩ := r
  · exact h.failed e' rfl
  · exact absurd he (hf a e)

end Guarded

variable {b : Broker} {now : Time} {c : Call} {h : List (Turn Broker Call)}

/-! ### The operations -/

theorem guarded_enqueue (newID : String) (o : Option Job) : Guarded b (b.enqueue now newID o) := by
  rcases o with - | j
  · exact .refused _
  · rw [enqueue]
    split_ifs with hqueue htype hclosed
    · exact .refused _
    · exact .refused _
    · exact .refused _
    · rcases b.uniqueHolder now j.uniqueKey with - | existing
      · exact .accepted hclosed _ _
      · exact .refused _

/-- A claim that is refused had popped nothing: the ready lists name stored jobs only. -/
theorem guarded_dequeue (hloc : Located b) (o : ClaimOpts) : Guarded b (b.dequeue now o) := by
  rw [dequeue]
  split_ifs with hworker htimeout hclosed
  · exact .refused _
  · exact .refused _
  · exact .refused _
  · rcases dequeueFrom_cases hloc now o.workerID o.visibilityTimeout o.queues with
      ⟨heq, -⟩ | ⟨q, -, id, rest, j, -, -, heq⟩
    · rw [heq]
      exact .refused _
    · rw [heq]
      exact .accepted hclosed _ _

theorem guarded_ack (w i : String) : Guarded b (b.ack w i) := by
  rw [Broker.ack]
  split_ifs with hclosed
  · exact .refused _
  · rcases b.ownedActive w i with e | j
    · exact .refused e
    · dsimp only
      split_ifs
      · exact .refused _
      · exact .accepted hclosed _ _

theorem guarded_nack (w i : String) (r : Time) (reason : String) :
    Guarded b (b.nack w i r reason) := by
  rw [nack]
  split_ifs with hclosed
  · exact .refused _
  · rcases b.ownedActive w i with e | j
    · exact .refused e
    · dsimp only
      split_ifs
      · exact .accepted hclosed _ _
      · exact .accepted hclosed _ _

theorem guarded_kill (w i reason : String) : Guarded b (b.kill w i reason) := by
  rw [kill]
  split_ifs with hclosed
  · exact .refused _
  · rcases b.ownedActive w i with e | j
    · exact .refused e
    · exact .accepted hclosed _ _

theorem guarded_extend (w : String) (ids : List String) (vt : Duration) :
    Guarded b (b.extend now w ids vt) := by
  rw [extend]
  split_ifs with htimeout hclosed
  · exact .refused _
  · exact .refused _
  · exact .accepted hclosed _ _

theorem guarded_reap (queues : List String) (limit : ℤ) : Guarded b (b.reap now queues limit) := by
  rw [reap]
  split_ifs with hlim hclosed
  · exact .same _
  · exact .refused _
  · exact .accepted hclosed _ _

theorem guarded_promote (limit : ℤ) : Guarded b (b.promote now limit) := by
  rw [promote]
  split_ifs with hlim hclosed
  · exact .same _
  · exact .refused _
  · exact .accepted hclosed _ _

theorem guarded_heartbeat (info : WorkerInfo) (ttl : Duration) :
    Guarded b (b.heartbeat now info ttl) := by
  rw [heartbeat]
  split_ifs with hworker httl hclosed
  · exact .refused _
  · exact .refused _
  · exact .refused _
  · exact .accepted hclosed _ _

theorem guarded_acquireLease (n a : String) (ttl : Duration) :
    Guarded b (b.acquireLease now n a ttl) := by
  rw [acquireLease]
  split_ifs with hnames httl hclosed
  · exact .refused _
  · exact .refused _
  · exact .refused _
  · dsimp only
    split_ifs
    · exact .same _
    · exact .accepted hclosed _ _

theorem guarded_releaseLease (n a : String) : Guarded b (b.releaseLease n a) := by
  rw [releaseLease]
  split_ifs with hclosed
  · exact .refused _
  · rcases b.leases.lookup n with - | e
    · exact .same _
    · dsimp only
      split_ifs
      · exact .accepted hclosed _ _
      · exact .same _

theorem guarded_retryDead (ids : List String) : Guarded b (b.retryDead ids) := by
  rw [retryDead]
  split_ifs with hclosed
  · exact .refused _
  · exact .accepted hclosed _ _

theorem guarded_purgeDead (ids : List String) : Guarded b (b.purgeDead ids) := by
  rw [purgeDead]
  split_ifs with hclosed
  · exact .refused _
  · exact .accepted hclosed _ _

theorem guarded_scheduleCronIfAbsent (i : String) (f : Time) :
    Guarded b (b.scheduleCronIfAbsent i f) := by
  rw [scheduleCronIfAbsent]
  split_ifs with hid hclosed hsome
  · exact .refused _
  · exact .refused _
  · exact .same _
  · exact .accepted hclosed _ _

theorem guarded_claimCron (i : String) (f f' : Time) : Guarded b (b.claimCron i f f') := by
  rw [claimCron]
  split_ifs with hclosed hfire
  · exact .refused _
  · exact .accepted hclosed _ _
  · exact .same _

theorem guarded_removeCron (i : String) : Guarded b (b.removeCron i) := by
  rw [removeCron]
  split_ifs with hclosed
  · exact .refused _
  · exact .accepted hclosed _ _

/-- **A call that fails changes nothing, and neither does any call on a closed broker**, whatever
the operation and its arguments. -/
theorem guarded_exec (hloc : Located b) (c : Call) :
    (∀ e, (exec b c).1 = .failed e → (exec b c).2 = b) ∧
      (b.closed = true → (exec b c).2 = b) := by
  obtain ⟨now, op⟩ := c
  cases op with
  | enqueue newID o => exact (guarded_enqueue newID o).reply fun _ _ ↦ by simp
  | dequeue o => exact (guarded_dequeue hloc o).reply fun _ _ ↦ by simp
  | ack w i => exact (guarded_ack w i).reply fun _ _ ↦ by simp
  | nack w i r reason => exact (guarded_nack w i r reason).reply fun _ _ ↦ by simp
  | kill w i reason => exact (guarded_kill w i reason).reply fun _ _ ↦ by simp
  | extend w ids vt => exact (guarded_extend w ids vt).reply fun _ _ ↦ by simp
  | close =>
    refine ⟨fun e he ↦ (nomatch he), fun hclosed ↦ ?_⟩
    show { b with closed := true } = b
    rw [← hclosed]
  | reap queues limit => exact (guarded_reap queues limit).reply fun _ _ ↦ by simp
  | promote limit => exact (guarded_promote limit).reply fun _ _ ↦ by simp
  | heartbeat info ttl => exact (guarded_heartbeat info ttl).reply fun _ _ ↦ by simp
  | acquireLease n a ttl => exact (guarded_acquireLease n a ttl).reply fun _ _ ↦ by simp
  | releaseLease n a => exact (guarded_releaseLease n a).reply fun _ _ ↦ by simp
  | retryDead ids => exact (guarded_retryDead ids).reply fun _ _ ↦ by simp
  | purgeDead ids => exact (guarded_purgeDead ids).reply fun _ _ ↦ by simp
  | scheduleCronIfAbsent i f =>
    exact (guarded_scheduleCronIfAbsent i f).reply fun _ _ ↦ by simp
  | claimCron i f f' => exact (guarded_claimCron i f f').reply fun _ _ ↦ by simp
  | removeCron i => exact (guarded_removeCron i).reply fun _ _ ↦ by simp
  | stats | listDead | listWorkers | dueCron => exact ⟨fun _ _ ↦ rfl, fun _ ↦ rfl⟩

/-! ### What `Dequeue` finds -/

/-- `Dequeue` passes over empty ready lists. -/
theorem dequeueFrom_append {w : String} {vt : Duration} {pre : List String} (qs : List String)
    (hpre : ∀ q ∈ pre, b.pending q = []) :
    dequeueFrom now w vt (pre ++ qs) b = dequeueFrom now w vt qs b := by
  induction pre with
  | nil => rfl
  | cons q pre ih =>
    rw [List.cons_append, dequeueFrom, hpre q List.mem_cons_self]
    exact ih fun q' hq' ↦ hpre q' (List.mem_cons_of_mem q hq')

/-- **`Dequeue` returns the head of the first listed queue that has one.** -/
theorem dequeue_head (hloc : Located b) {o : ClaimOpts} (hworker : o.workerID ≠ "")
    (htimeout : 0 < o.visibilityTimeout) (hopen : b.closed = false) {pre post rest : List String}
    {q id : String} (hqueues : o.queues = pre ++ q :: post) (hpre : ∀ q' ∈ pre, b.pending q' = [])
    (hq : b.pending q = id :: rest) :
    ∃ j, b.jobs.lookup id = some j ∧
      (b.dequeue now o).1 = .ok (claimedJob now j o.workerID o.visibilityTimeout) ∧ j.id = id := by
  obtain ⟨j, hj, -⟩ := hloc.of_head hq
  refine ⟨j, hj, ?_, hloc.keyed id j hj⟩
  rw [dequeue, if_neg hworker, if_neg (not_le.2 htimeout), if_neg (by rw [hopen]; decide), hqueues,
    dequeueFrom_append _ hpre, dequeueFrom, hq]
  simp only [hj]

/-- **`Dequeue` finds no job exactly if all listed queues are empty.** -/
theorem dequeue_noJob_iff (hloc : Located b) {o : ClaimOpts} (hworker : o.workerID ≠ "")
    (htimeout : 0 < o.visibilityTimeout) (hopen : b.closed = false) :
    (b.dequeue now o).1 = .error .noJob ↔ ∀ q ∈ o.queues, b.pending q = [] := by
  rw [dequeue, if_neg hworker, if_neg (not_le.2 htimeout), if_neg (by rw [hopen]; decide)]
  rcases dequeueFrom_cases hloc now o.workerID o.visibilityTimeout o.queues with
    ⟨heq, hempty⟩ | ⟨q, hmem, id, rest, j, hq, -, heq⟩
  · rw [heq]
    exact iff_of_true rfl hempty
  · rw [heq]
    refine iff_of_false (by simp) fun hempty ↦ ?_
    rw [hempty q hmem] at hq
    cases hq

/-! ### Runs -/

/-- Nothing happens after `Close`. -/
theorem eq_of_close {t : Turn Broker Call} {older : List (Turn Broker Call)}
    (hop : t.input.op = .close) : ∀ {newer : List (Turn Broker Call)} {b : Broker},
    machine.Run Fresh (newer ++ t :: older) b → b = machine.after t ∧ b.closed = true
  | [], b, hrun => by
    obtain ⟨-, -, rfl⟩ := hrun.of_cons
    refine ⟨rfl, ?_⟩
    show (exec t.before t.input).2.closed = true
    rw [exec, hop]
    rfl
  | u :: newer, b, hrun => by
    obtain ⟨hprev, -, rfl⟩ := hrun.of_cons
    obtain ⟨heq, hclosed⟩ := eq_of_close hop hprev
    have hsame : machine.after u = u.before :=
      (guarded_exec (lives_of_fresh hprev).1 u.input).2 hclosed
    rw [hsame]
    exact ⟨heq, hclosed⟩

/-- **Errors leave the broker untouched.** In every reachable state: a call that returns an error
changes nothing; `Dequeue` on an open broker and with valid options finds no job exactly if the
ready lists of all listed queues are empty, and else returns the head of the first that is not; and
after `Close` nothing changes any more. -/
theorem errors_leave_broker_untouched (hrun : machine.Run Fresh h b) :
    (∀ c e, (exec b c).1 = .failed e → (exec b c).2 = b) ∧
    (∀ now o, o.workerID ≠ "" → 0 < o.visibilityTimeout → b.closed = false →
      ((b.dequeue now o).1 = .error .noJob ↔ ∀ q ∈ o.queues, b.pending q = []) ∧
      ∀ pre q post id rest, o.queues = pre ++ q :: post → (∀ q' ∈ pre, b.pending q' = []) →
        b.pending q = id :: rest → ∃ j, b.jobs.lookup id = some j ∧
          (b.dequeue now o).1 = .ok (claimedJob now j o.workerID o.visibilityTimeout) ∧
          j.id = id) ∧
    (∀ newer t older, h = newer ++ t :: older → t.input.op = .close → b = machine.after t) ∧
    (b.closed = true → ∀ c, (exec b c).2 = b) := by
  have hloc := (lives_of_fresh hrun).1
  refine ⟨fun c e he ↦ (guarded_exec hloc c).1 e he, fun now o hworker htimeout hopen ↦ ⟨?_, ?_⟩,
    ?_, fun hclosed c ↦ (guarded_exec hloc c).2 hclosed⟩
  · exact dequeue_noJob_iff hloc hworker htimeout hopen
  · intro pre q post id rest hqueues hpre hq
    exact dequeue_head hloc hworker htimeout hopen hqueues hpre hq
  · rintro newer t older rfl hop
    exact (eq_of_close hop hrun).1

/-- With one job in the second of two queues, an `Ack` of another job fails and changes nothing, and
a `Dequeue` of both queues returns the job. -/
theorem errors_leave_broker_untouched_queued : ∃ h b, machine.Run Fresh h b ∧
    b.pending "r" = ["a"] ∧ (exec b ⟨2, .ack "w" "x"⟩).1 = .failed (.jobNotFound "x") ∧
    (exec b ⟨2, .ack "w" "x"⟩).2 = b ∧
    ∃ j, (b.dequeue 2 ⟨"w", ["q", "r"], 10⟩).1 = .ok j ∧ j.id = "a" := by
  have hrun : machine.Run Fresh _ _ := .step ⟨1, .enqueue "a" (some (Job.plain "r" "t" 3))⟩ .start
    ⟨fun _ _ _ _ ht ↦ (nomatch ht), fun _ hop ↦ nomatch hop⟩
  obtain ⟨hfailed, hdequeue, -⟩ := errors_leave_broker_untouched hrun
  obtain ⟨j, -, hj, hid⟩ := (hdequeue 2 ⟨"w", ["q", "r"], 10⟩ (by decide) (by decide) rfl).2
    ["q"] "r" [] "a" [] rfl (by decide) rfl
  exact ⟨_, _, hrun, rfl, rfl, hfailed _ _ rfl, _, hj, hid⟩

end TaskQueue.Memory
