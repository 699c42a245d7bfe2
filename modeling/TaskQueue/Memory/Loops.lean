import TaskQueue.Memory.Location

/-!
# The elementary updates of the in-memory broker

A call of the broker is a sequence of **elementary updates** (`Update`): a job is stored, popped,
claimed, completed, dead-lettered, renewed, recovered, promoted, replayed or purged, or one of the
tables beside the jobs is written. So a **preorder** on brokers that relates a broker to what each
of these updates makes of it also relates it to what the whole call makes of it (`rel_exec`). That
is the only thing most properties need to know about a call; the loops are taken apart here, once.
-/

namespace TaskQueue.Memory

namespace Broker

/-- The elementary updates an operation is made of. -/
inductive Update (now : Time) (b : Broker) : Op → Broker → Prop
  | store (newID : String) (o : Option Job) (j : Job) :
      Update now b (.enqueue newID o) (b.store now j)
  | pop (o : ClaimOpts) (q : String) : Update now b (.dequeue o) (b.pop q)
  | claim (o : ClaimOpts) {id : String} {j : Job} (hj : b.jobs.lookup id = some j) :
      Update now b (.dequeue o) (b.claim now id j o.workerID o.visibilityTimeout)
  | complete (w id : String) : Update now b (.ack w id)
      { b with
        active := b.active.erase id
        jobs := b.jobs.erase id
        processed := b.processed + 1 }
  | postpone (w : String) {id : String} {r : Time} {reason : String} {j : Job}
      (hj : b.jobs.lookup id = some j) : Update now b (.nack w id r reason)
      { b.dropLease id with
        jobs := b.jobs.insert id { j with owner := "", lastErr := reason, state := .retry }
        retry := b.retry.insert id r }
  | exhaust (w : String) {id : String} (r : Time) {reason : String} {j : Job}
      (hj : b.jobs.lookup id = some j) : Update now b (.nack w id r reason)
      ((b.dropLease id).moveToDeadLocked id { j with owner := "", lastErr := reason })
  | kill (w : String) {id reason : String} {j : Job} (hj : b.jobs.lookup id = some j) :
      Update now b (.kill w id reason)
      ((b.dropLease id).moveToDeadLocked id { j with owner := "", lastErr := reason })
  | renew (w : String) (ids : List String) (vt : Duration) {id : String} {j : Job}
      (hj : b.jobs.lookup id = some j) : Update now b (.extend w ids vt) (b.renew id j (now + vt))
  | close : Update now b .close b.close
  | recover (queues : List String) (limit : ℤ) {id : String} {j : Job}
      (hj : b.jobs.lookup id = some j) : Update now b (.reap queues limit) (b.recover id j)
  | leave (limit : ℤ) (set : WaitSet) (id : String) :
      Update now b (.promote limit) (b.leaveSet set id)
  | promote (limit : ℤ) (set : WaitSet) {id : String} {j : Job}
      (hj : b.jobs.lookup id = some j) : Update now b (.promote limit) (b.promoteJob set id j)
  | beat (info : WorkerInfo) (ttl : Duration) (m : Table String WorkerEntry) :
      Update now b (.heartbeat info ttl) { b with workers := m }
  | acquire (n a : String) (ttl : Duration) (m : Table String LeaseEntry) :
      Update now b (.acquireLease n a ttl) { b with leases := m }
  | release (n a : String) (m : Table String LeaseEntry) :
      Update now b (.releaseLease n a) { b with leases := m }
  | replay (ids : List String) {id : String} {j : Job} (hj : b.jobs.lookup id = some j) :
      Update now b (.retryDead ids) (b.replay id j)
  | purge (ids : List String) (id : String) : Update now b (.purgeDead ids) (b.purge id)
  | schedule (i : String) (f : Time) (m : Table String Time) :
      Update now b (.scheduleCronIfAbsent i f) { b with cron := m }
  | fire (i : String) (f f' : Time) (m : Table String Time) :
      Update now b (.claimCron i f f') { b with cron := m }
  | remove (i : String) (m : Table String Time) : Update now b (.removeCron i) { b with cron := m }

/-- `Enqueue` refuses the job and changes nothing, or stores it. -/
theorem enqueue_cases (b : Broker) (now : Time) (newID : String) (o : Option Job) :
    (∃ e, b.enqueue now newID o = (.error e, b)) ∨
      ∃ j, o = some j ∧ b.enqueue now newID o =
        (.ok (stamped now newID j), b.store now (stamped now newID j)) := by
  rcases o with - | j
  · exact .inl ⟨_, rfl⟩
  · rw [enqueue]
    split_ifs
    · exact .inl ⟨_, rfl⟩
    · exact .inl ⟨_, rfl⟩
    · exact .inl ⟨_, rfl⟩
    · rcases b.uniqueHolder now j.uniqueKey with - | existing
      · exact .inr ⟨j, rfl, rfl⟩
      · exact .inl ⟨_, rfl⟩

variable {R : Broker → Broker → Prop} (hrefl : ∀ b, R b b)
  (htrans : ∀ {b b' b'' : Broker}, R b b' → R b' b'' → R b b'')
  {b : Broker} {now : Time} {w : String}

include hrefl htrans

theorem rel_dequeue {o : ClaimOpts} (hpop : ∀ b q, R b (b.pop q))
    (hclaim : ∀ b id j, b.jobs.lookup id = some j →
      R b (b.claim now id j o.workerID o.visibilityTimeout)) : R b (b.dequeue now o).2 := by
  have hloop : ∀ (qs : List String) (b : Broker),
      R b (dequeueFrom now o.workerID o.visibilityTimeout qs b).2 := by
    intro qs
    induction qs with
    | nil => exact hrefl
    | cons q qs ih =>
      intro b
      rw [dequeueFrom]
      rcases b.pending q with - | ⟨id, -⟩
      · exact ih b
      · dsimp only
        rcases hj : b.jobs.lookup id with - | j
        · exact htrans (hpop b q) (ih _)
        · exact htrans (hpop b q) (hclaim _ id j hj)
  rw [dequeue]
  split_ifs
  · exact hrefl b
  · exact hrefl b
  · exact hrefl b
  · exact hloop _ b

theorem rel_extend {ids : List String} {vt : Duration} (hrenew : ∀ b id j,
    b.jobs.lookup id = some j → R b (b.renew id j (now + vt))) : R b (b.extend now w ids vt).2 := by
  have hloop : ∀ (ids : List String) (b : Broker), R b (extendLoop w (now + vt) ids b).2 := by
    intro ids
    induction ids with
    | nil => exact hrefl
    | cons id ids ih =>
      intro b
      rw [extendLoop]
      rcases hown : b.ownedActive w id with e | j
      · exact ih b
      · exact htrans (hrenew b id j (ownedActive_eq_ok.1 hown).1) (ih _)
  rw [extend]
  split_ifs
  · exact hrefl b
  · exact hrefl b
  · exact hloop ids b

theorem rel_reap {queues : List String} {limit : ℤ} (hrecover : ∀ b id j,
    b.jobs.lookup id = some j → R b (b.recover id j)) : R b (b.reap now queues limit).2 := by
  have hloop : ∀ (cs : List (Time ×ₗ String)) (k : ℕ) (b : Broker),
      R b (reapLoop limit cs k b).2 := by
    intro cs
    induction cs with
    | nil => exact fun _ b ↦ hrefl b
    | cons c cs ih =>
      intro k b
      rw [reapLoop]
      split_ifs
      · exact hrefl b
      · rcases hj : b.jobs.lookup (ofLex c).2 with - | j
        · exact ih k b
        · exact htrans (hrecover b _ j hj) (ih (k + 1) _)
  rw [reap]
  split_ifs
  · exact hrefl b
  · exact hrefl b
  · exact hloop _ 0 b

theorem rel_promote {limit : ℤ} (hleave : ∀ b set id, R b (b.leaveSet set id))
    (hpromote : ∀ b set id j, b.jobs.lookup id = some j → R b (b.promoteJob set id j)) :
    R b (b.promote now limit).2 := by
  have hloop : ∀ (cs : List ((Time ×ₗ String) × WaitSet)) (k : ℕ) (b : Broker),
      R b (promoteLoop limit cs k b).2 := by
    intro cs
    induction cs with
    | nil => exact fun _ b ↦ hrefl b
    | cons c cs ih =>
      intro k b
      rw [promoteLoop]
      split_ifs
      · exact hrefl b
      · rcases hj : b.jobs.lookup (ofLex c.1).2 with - | j
        · exact htrans (hleave b c.2 _) (ih k _)
        · exact htrans (hpromote b c.2 _ j hj) (ih (k + 1) _)
  rw [promote]
  split_ifs
  · exact hrefl b
  · exact hrefl b
  · exact hloop _ 0 b

theorem rel_retryDead {ids : List String} (hreplay : ∀ b id j, b.jobs.lookup id = some j →
    R b (b.replay id j)) : R b (b.retryDead ids).2 := by
  have hloop : ∀ (ids : List String) (k : ℕ) (b : Broker), R b (retryLoop ids k b).2 := by
    intro ids
    induction ids with
    | nil => exact fun _ b ↦ hrefl b
    | cons id ids ih =>
      intro k b
      rw [retryLoop]
      rcases hj : b.jobs.lookup id with - | j
      · exact ih k b
      · exact htrans (hreplay b id j hj) (ih (k + 1) _)
  rw [retryDead]
  split_ifs
  · exact hrefl b
  · exact hloop _ 0 b

theorem rel_purgeDead {ids : List String} (hpurge : ∀ b id, R b (b.purge id)) :
    R b (b.purgeDead ids).2 := by
  have hloop : ∀ (ids : List String) (k : ℕ) (b : Broker), R b (purgeLoop ids k b).2 := by
    intro ids
    induction ids with
    | nil => exact fun _ b ↦ hrefl b
    | cons id ids ih =>
      intro k b
      rw [purgeLoop]
      rcases b.jobs.lookup id with - | j
      · exact ih k b
      · exact htrans (hpurge b id) (ih (k + 1) _)
  rw [purgeDead]
  split_ifs
  · exact hrefl b
  · exact hloop _ 0 b

end Broker

open Broker

variable {R : Broker → Broker → Prop} {c : Call}

/-- **A call relates the brokers its elementary updates relate.** -/
theorem rel_exec (hrefl : ∀ b, R b b)
    (htrans : ∀ {b b' b'' : Broker}, R b b' → R b' b'' → R b b'')
    (hupdate : ∀ b b', Update c.now b c.op b' → R b b') (b : Broker) : R b (exec b c).2 := by
  obtain ⟨now, op⟩ := c
  cases op with
  | enqueue newID o =>
    show R b (b.enqueue now newID o).2
    rcases enqueue_cases b now newID o with ⟨e, heq⟩ | ⟨j, -, heq⟩
    · rw [heq]
      exact hrefl b
    · rw [heq]
      exact hupdate _ _ (.store newID o _)
  | dequeue o =>
    exact rel_dequeue hrefl htrans (fun b q ↦ hupdate _ _ (.pop o q))
      fun b id j hj ↦ hupdate _ _ (.claim o hj)
  | ack w i =>
    show R b (b.ack w i).2
    rw [Broker.ack]
    split_ifs
    · exact hrefl b
    · rcases b.ownedActive w i with e | j
      · exact hrefl b
      · dsimp only
        split_ifs
        · exact hrefl b
        · exact hupdate _ _ (.complete w i)
  | nack w i r reason =>
    show R b (b.nack w i r reason).2
    rw [nack]
    split_ifs
    · exact hrefl b
    · rcases hown : b.ownedActive w i with e | j
      · exact hrefl b
      · have hj := (ownedActive_eq_ok.1 hown).1
        dsimp only
        split_ifs
        · exact hupdate _ _ (.exhaust w r hj)
        · exact hupdate _ _ (.postpone w hj)
  | kill w i reason =>
    show R b (b.kill w i reason).2
    rw [kill]
    split_ifs
    · exact hrefl b
    · rcases hown : b.ownedActive w i with e | j
      · exact hrefl b
      · exact hupdate _ _ (.kill w (ownedActive_eq_ok.1 hown).1)
  | extend w ids vt =>
    exact rel_extend hrefl htrans fun b id j hj ↦ hupdate _ _ (.renew w ids vt hj)
  | close => exact hupdate _ _ .close
  | reap queues limit =>
    exact rel_reap hrefl htrans fun b id j hj ↦ hupdate _ _ (.recover queues limit hj)
  | promote limit =>
    exact rel_promote hrefl htrans (fun b set id ↦ hupdate _ _ (.leave limit set id))
      fun b set id j hj ↦ hupdate _ _ (.promote limit set hj)
  | heartbeat info ttl =>
    show R b (b.heartbeat now info ttl).2
    rw [heartbeat]
    split_ifs
    · exact hrefl b
    · exact hrefl b
    · exact hrefl b
    · exact hupdate _ _ (.beat info ttl _)
  | acquireLease n a ttl =>
    show R b (b.acquireLease now n a ttl).2
    rw [acquireLease]
    dsimp only
    split_ifs
    · exact hrefl b
    · exact hrefl b
    · exact hrefl b
    · exact hrefl b
    · exact hupdate _ _ (.acquire n a ttl _)
  | releaseLease n a =>
    show R b (b.releaseLease n a).2
    rw [releaseLease]
    split_ifs
    · exact hrefl b
    · rcases b.leases.lookup n with - | e
      · exact hrefl b
      · dsimp only
        split_ifs
        · exact hupdate _ _ (.release n a _)
        · exact hrefl b
  | retryDead ids =>
    exact rel_retryDead hrefl htrans fun b id j hj ↦ hupdate _ _ (.replay ids hj)
  | purgeDead ids => exact rel_purgeDead hrefl htrans fun b id ↦ hupdate _ _ (.purge ids id)
  | scheduleCronIfAbsent i f =>
    show R b (b.scheduleCronIfAbsent i f).2
    rw [scheduleCronIfAbsent]
    split_ifs
    · exact hrefl b
    · exact hrefl b
    · exact hrefl b
    · exact hupdate _ _ (.schedule i f _)
  | claimCron i f f' =>
    show R b (b.claimCron i f f').2
    rw [claimCron]
    split_ifs
    · exact hrefl b
    · exact hupdate _ _ (.fire i f f' _)
    · exact hrefl b
  | removeCron i =>
    show R b (b.removeCron i).2
    rw [removeCron]
    split_ifs
    · exact hrefl b
    · exact hupdate _ _ (.remove i _)
  | stats | listDead | listWorkers | dueCron => exact hrefl b

end TaskQueue.Memory
