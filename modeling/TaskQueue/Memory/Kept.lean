import TaskQueue.Memory.Loops

/-!
# What the operations on jobs leave alone

The operations that claim, settle, recover, promote, replay and purge jobs rewrite the envelopes of
the jobs they are about. What they never touch is said here once (`Keeps`):

* the **task** of a job, which is everything in its envelope but the bookkeeping of running it;
* the two tables beside the jobs, the named leases and the cron entries.

`Keeps` is a preorder, so a call keeps what its elementary updates keep (`rel_exec`). Only `Enqueue`
puts a new task in, and only the operations about leases and cron entries write those tables.
-/

namespace TaskQueue

/-- The two envelopes differ at most in the bookkeeping of running the job. -/
def Job.SameTask (j j' : Job) : Prop :=
  j' = { j with
    attempt := j'.attempt
    recoveries := j'.recoveries
    state := j'.state
    owner := j'.owner
    lastErr := j'.lastErr
    startedAt := j'.startedAt
    deadline := j'.deadline }

namespace Job.SameTask

variable {j j' j'' : Job}

theorem refl (j : Job) : SameTask j j := rfl

theorem trans (h : SameTask j j') (h' : SameTask j' j'') : SameTask j j'' := by
  rw [SameTask] at h h' ⊢
  rw [h', h]

theorem runAt_eq (h : SameTask j j') : j'.runAt = j.runAt := by
  rw [SameTask] at h
  rw [h]

theorem queue_eq (h : SameTask j j') : j'.queue = j.queue := by
  rw [SameTask] at h
  rw [h]

end Job.SameTask

namespace Memory

namespace Broker

variable {b b' b'' : Broker} {now : Time} {id w : String} {j j' : Job}

/-- Every stored job was stored before, as the same task, and the named leases and the cron entries
are unchanged. -/
structure Keeps (b b' : Broker) : Prop where
  tasks : ∀ id j', b'.jobs.lookup id = some j' → ∃ j, b.jobs.lookup id = some j ∧ j.SameTask j'
  leases : b'.leases = b.leases
  cron : b'.cron = b.cron

namespace Keeps

theorem refl (b : Broker) : Keeps b b := ⟨fun _ j hj ↦ ⟨j, hj, .refl j⟩, rfl, rfl⟩

theorem trans (h : Keeps b b') (h' : Keeps b' b'') : Keeps b b'' := by
  refine ⟨fun id j'' hj'' ↦ ?_, h'.leases.trans h.leases, h'.cron.trans h.cron⟩
  obtain ⟨j', hj', hsame'⟩ := h'.tasks id j'' hj''
  obtain ⟨j, hj, hsame⟩ := h.tasks id j' hj'
  exact ⟨j, hj, hsame.trans hsame'⟩

/-- The envelopes are untouched. -/
theorem of_jobs (hjobs : b'.jobs = b.jobs) (hleases : b'.leases = b.leases)
    (hcron : b'.cron = b.cron) : Keeps b b' :=
  ⟨fun _ j hj ↦ ⟨j, hjobs ▸ hj, .refl j⟩, hleases, hcron⟩

/-- The envelope of one job is rewritten. -/
theorem of_insert (hj : b.jobs.lookup id = some j) (hjobs : b'.jobs = b.jobs.insert id j')
    (hsame : j.SameTask j') (hleases : b'.leases = b.leases)
    (hcron : b'.cron = b.cron) : Keeps b b' := by
  refine ⟨fun x jx hx ↦ ?_, hleases, hcron⟩
  rw [hjobs, Table.lookup_insert_eq] at hx
  split_ifs at hx with hxid
  · obtain rfl := Option.some.inj hx
    exact ⟨j, hxid ▸ hj, hsame⟩
  · exact ⟨jx, hx, .refl jx⟩

/-- The envelope of one job is deleted. -/
theorem of_erase (id : String) (hjobs : b'.jobs = b.jobs.erase id)
    (hleases : b'.leases = b.leases) (hcron : b'.cron = b.cron) : Keeps b b' := by
  refine ⟨fun x jx hx ↦ ?_, hleases, hcron⟩
  rw [hjobs, Table.lookup_erase_eq] at hx
  split_ifs at hx
  exact ⟨jx, hx, .refl jx⟩

protected theorem recover (hj : b.jobs.lookup id = some j) : Keeps b (b.recover id j) := by
  rw [Broker.recover]
  split_ifs
  · exact .of_insert hj rfl rfl rfl rfl
  · exact .of_insert hj rfl rfl rfl rfl

end Keeps

/-! ### Storing a job -/

theorem lookup_store (b : Broker) (now : Time) (j : Job) (id : String) :
    (b.store now j).jobs.lookup id =
      if id = j.id then
        some { j with owner := "", state := if now < j.runAt then .scheduled else .pending }
      else b.jobs.lookup id := by
  rw [store]
  split_ifs <;> simp [Table.lookup_insert_eq, *]

theorem store_leases (b : Broker) (now : Time) (j : Job) :
    (b.store now j).leases = b.leases ∧ (b.store now j).cron = b.cron := by
  rw [store]
  split_ifs <;> exact ⟨rfl, rfl⟩

end Broker

open Broker

variable {b : Broker} {c : Call}

/-- The operations that are about the named leases or the cron entries. -/
def Op.isService : Op → Bool
  | .acquireLease _ _ _ | .releaseLease _ _ => true
  | .scheduleCronIfAbsent _ _ | .claimCron _ _ _ | .removeCron _ => true
  | _ => false

/-- Every other update but the storing of a job keeps tasks, leases and cron entries. -/
theorem keeps_update {now : Time} {op : Op} {b' : Broker} (hop : op.isService = false)
    (henq : ∀ newID o, op ≠ .enqueue newID o) (hupdate : Update now b op b') : Keeps b b' := by
  cases hupdate with
  | store newID o => exact absurd rfl (henq newID o)
  | pop | close | beat => exact .of_jobs rfl rfl rfl
  | leave limit set => rcases set with - | - <;> exact .of_jobs rfl rfl rfl
  | complete w i => exact .of_erase i rfl rfl rfl
  | purge ids i => exact .of_erase i rfl rfl rfl
  | claim o hj => exact .of_insert hj rfl rfl rfl rfl
  | postpone w hj => exact .of_insert hj rfl rfl rfl rfl
  | exhaust w r hj => exact .of_insert hj rfl rfl rfl rfl
  | kill w hj => exact .of_insert hj rfl rfl rfl rfl
  | renew w ids vt hj => exact .of_insert hj rfl rfl rfl rfl
  | replay ids hj => exact .of_insert hj rfl rfl rfl rfl
  | recover queues limit hj => exact .recover hj
  | promote limit set hj => rcases set with - | - <;> exact .of_insert hj rfl rfl rfl rfl
  | acquire | release | schedule | fire | remove => cases hop

/-- **Every other operation but `Enqueue` keeps tasks, leases and cron entries.** -/
theorem keeps_exec (hop : c.op.isService = false) (henq : ∀ newID o, c.op ≠ .enqueue newID o) :
    Keeps b (exec b c).2 :=
  rel_exec .refl .trans (fun _ _ ↦ keeps_update hop henq) b

/-- `Enqueue` keeps leases and cron entries too. -/
theorem services_exec (hop : c.op.isService = false) :
    (exec b c).2.leases = b.leases ∧ (exec b c).2.cron = b.cron := by
  by_cases henq : ∃ newID o, c.op = .enqueue newID o
  · obtain ⟨newID, o, henq⟩ := henq
    have hexec : (exec b c).2 = (b.enqueue c.now newID o).2 := by
      rw [exec, henq]
      rfl
    rw [hexec]
    rcases enqueue_cases b c.now newID o with ⟨e, heq⟩ | ⟨j, -, heq⟩
    · rw [heq]
      exact ⟨rfl, rfl⟩
    · rw [heq]
      exact store_leases b c.now _
  · have hkeeps := keeps_exec (b := b) hop fun newID o h ↦ henq ⟨newID, o, h⟩
    exact ⟨hkeeps.leases, hkeeps.cron⟩

end Memory

end TaskQueue
