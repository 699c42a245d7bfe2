import Mathlib.Algebra.BigOperators.Ring.Finset
import TaskQueue.Data.Tally
import TaskQueue.Memory.Unique

/-!
# What Stats reports

`Stats` counts containers: the length of each ready list, the members of the active, scheduled and
retry sets by the queue of their job, the length of the dead-letter list. That these counts are the
numbers of stored jobs in each state is the location invariant, read as a count: a container lists
each of its jobs once, and lists exactly the jobs whose state names it (`countP_keys`).

The two running totals are about the past. `Processed` grows with every `Ack` that succeeds, and
`Failed` with every job that enters the dead-letter list; nothing lowers either of them, so a job
that is replayed or purged stays counted (`failed_after`).
-/

namespace TaskQueue.Memory

namespace Broker

variable {b b' b'' : Broker} {q : String} {s : State}

/-- The number of stored jobs of a queue in a state. -/
def depth (b : Broker) (q : String) (s : State) : ℕ :=
  b.jobs.entries.countP fun e ↦ decide (e.2.state = s) && decide (e.2.queue = q)

/-- The number of stored jobs in a state. -/
def inState (b : Broker) (s : State) : ℕ := b.jobs.entries.countP fun e ↦ decide (e.2.state = s)

/-! ### Containers count jobs -/

/-- A list that has each job of one container once, and nothing else. -/
theorem nodup_of_counts {l : List String} {p : Place}
    (hcount : ∀ id, l.count id = if b.home id = some p then 1 else 0) : l.Nodup := by
  refine List.nodup_iff_count_le_one.2 fun id ↦ ?_
  rw [hcount]
  split_ifs <;> simp

/-- It is as long as there are jobs whose state names the container. -/
theorem length_of_counts {l : List String} {p : Place} {f : Job → Bool}
    (hcount : ∀ id, l.count id = if b.home id = some p then 1 else 0)
    (hf : ∀ j, place j = some p ↔ f j = true) :
    l.length = b.jobs.entries.countP fun e ↦ f e.2 := by
  refine Tally.length_eq_countP (nodup_of_counts hcount) fun id ↦ ?_
  have hhome : b.home id = some p ↔ ∃ j, b.jobs.lookup id = some j ∧ f j = true := by
    rw [home, Option.bind_eq_some_iff]
    simp only [hf]
  rw [← hhome, ← List.count_pos_iff, hcount]
  split_ifs with hp <;> simp [hp]

theorem Located.length_pending (h : Located b) (q : String) :
    (b.pending q).length = b.depth q .pending :=
  length_of_counts (f := fun j ↦ decide (j.state = .pending) && decide (j.queue = q))
    (fun id ↦ (h.counts id).1 q) fun j ↦ by simp [place_eq_some_iff]

theorem Located.length_dead (h : Located b) : b.dead.length = b.inState .dead :=
  length_of_counts (f := fun j ↦ decide (j.state = .dead)) (fun id ↦ (h.counts id).2.2.2.2)
    fun j ↦ by simp [place_eq_some_iff]

/-- A set that has exactly the jobs in a state counts, queue by queue, the jobs in that state. -/
theorem countP_keys {m : Table String Time}
    (hm : ∀ id, (m.lookup id).isSome ↔ ∃ j, b.jobs.lookup id = some j ∧ j.state = s) (q : String) :
    (m.keys.countP fun id ↦ (b.jobs.lookup id).map Job.queue = some q) = b.depth q s := by
  rw [List.countP_eq_length_filter]
  refine Tally.length_eq_countP (m := b.jobs)
    (p := fun j ↦ decide (j.state = s) && decide (j.queue = q)) (m.keys_nodup.filter _) fun id ↦ ?_
  rw [List.mem_filter, ← AList.mem_keys, ← AList.lookup_isSome, hm]
  constructor
  · rintro ⟨⟨j, hj, hs⟩, hq⟩
    exact ⟨j, hj, by simpa [hs, hj] using hq⟩
  · rintro ⟨j, hj, hjq⟩
    rw [Bool.and_eq_true, decide_eq_true_eq, decide_eq_true_eq] at hjq
    exact ⟨⟨j, hj, hjq.1⟩, by simp [hj, hjq.2]⟩

/-! ### The rows -/

/-- The row of a queue in which nothing is counted yet. -/
def emptyRow (q : String) : QueueStats := ⟨q, 0, 0, 0, 0⟩

/-- Every stored job's queue is registered. -/
def Registered (b : Broker) : Prop := ∀ id j, b.jobs.lookup id = some j → j.queue ∈ b.queues

/-- The rows of `Stats` while it counts: one for each registered queue, under its name. -/
structure Rows (b : Broker) (s : Table String QueueStats) : Prop where
  dom : ∀ q, (s.lookup q).isSome ↔ q ∈ b.queues
  named : ∀ q r, s.lookup q = some r → r.queue = q

theorem Rows.row_queue {s : Table String QueueStats} (h : Rows b s) (q : String) :
    (Tally.row emptyRow s q).queue = q := by
  rw [Tally.row]
  rcases hr : s.lookup q with - | r
  · rfl
  · exact h.named q r hr

theorem Rows.lookup {s : Table String QueueStats} (h : Rows b s) (q : String) :
    s.lookup q = if q ∈ b.queues then some (Tally.row emptyRow s q) else none := by
  rw [Tally.row]
  rcases hr : s.lookup q with - | r
  · rw [if_neg fun hq ↦ by simpa [hr] using (h.dom q).2 hq]
  · rw [if_pos ((h.dom q).1 (by simp [hr]))]
    rfl

variable {f : QueueStats → QueueStats}

/-- **`bump` counts a job against the row of its queue.** -/
theorem Rows.bump_eq {s : Table String QueueStats} (h : Rows b s) {id : String} {j : Job}
    (hj : b.jobs.lookup id = some j) :
    b.bump f s id = s.insert j.queue (f (Tally.row emptyRow s j.queue)) := by
  rw [bump, hj, Tally.row]
  dsimp only
  rcases hr : s.lookup j.queue with - | r
  · rfl
  · have hname := h.named _ r hr
    cases r
    simp_all

theorem Rows.row_bump {s : Table String QueueStats} (h : Rows b s) (id q : String) :
    Tally.row emptyRow (b.bump f s id) q =
      if (b.jobs.lookup id).map Job.queue = some q then f (Tally.row emptyRow s q)
      else Tally.row emptyRow s q := by
  rcases hj : b.jobs.lookup id with - | j
  · rw [bump, hj]
    rfl
  · rw [h.bump_eq hj, Tally.row_insert, Option.map_some]
    by_cases hq : j.queue = q
    · subst hq
      rw [if_pos rfl, if_pos rfl]
    · rw [if_neg (Ne.symm hq), if_neg fun h ↦ hq (Option.some.inj h)]

theorem Rows.bump {s : Table String QueueStats} (h : Rows b s) (hreg : b.Registered)
    (hf : ∀ r, (f r).queue = r.queue) (id : String) : Rows b (b.bump f s id) := by
  rcases hj : b.jobs.lookup id with - | j
  · rw [Broker.bump, hj]
    exact h
  · rw [h.bump_eq hj]
    refine ⟨fun q ↦ ?_, fun q r hr ↦ ?_⟩
    · rw [Table.lookup_insert_eq]
      split_ifs with hq
      · exact iff_of_true rfl (hq ▸ hreg id j hj)
      · exact h.dom q
    · rw [Table.lookup_insert_eq] at hr
      split_ifs at hr with hq
      · rw [← Option.some.inj hr, hf, h.row_queue, hq]
      · exact h.named q r hr

/-- A pass of `Stats` over one of the sets. -/
theorem row_pass (hreg : b.Registered) (hf : ∀ r, (f r).queue = r.queue)
    {m : Table String Time} {st : State}
    (hm : ∀ id, (m.lookup id).isSome ↔ ∃ j, b.jobs.lookup id = some j ∧ j.state = st)
    {s : Table String QueueStats} (h : Rows b s) : Rows b (m.keys.foldl (b.bump f) s) ∧
      ∀ q, Tally.row emptyRow (m.keys.foldl (b.bump f) s) q =
        f^[b.depth q st] (Tally.row emptyRow s q) := by
  obtain ⟨hrows, hrow⟩ := Tally.row_foldl (P := Rows b)
    (fun s id hs ↦ hs.bump hreg hf id) (fun s id q hs ↦ hs.row_bump id q) m.keys h
  refine ⟨hrows, fun q ↦ ?_⟩
  rw [hrow, countP_keys hm]

/-- The rows `Stats` begins with. -/
def rows₀ (b : Broker) : Table String QueueStats :=
  b.queues.keys.foldl (fun s q ↦ s.insert q ⟨q, (b.pending q).length, 0, 0, 0⟩) ∅

theorem lookup_rows₀ (b : Broker) (q : String) : b.rows₀.lookup q =
    if q ∈ b.queues.keys then some ⟨q, (b.pending q).length, 0, 0, 0⟩ else none := by
  rw [rows₀, Tally.lookup_foldl_insert]
  rfl

theorem rows_rows₀ (b : Broker) : Rows b b.rows₀ := by
  refine ⟨fun q ↦ ?_, fun q r hr ↦ ?_⟩
  · rw [lookup_rows₀, AList.mem_keys]
    split_ifs with hq <;> simp [hq]
  · rw [lookup_rows₀] at hr
    split_ifs at hr
    rw [← Option.some.inj hr]

/-- A set that has the jobs of one container has the jobs in the state that names it. -/
theorem isSome_lookup_iff {m : Table String Time} {p : Place}
    (hm : ∀ id, (m.lookup id).isSome ↔ b.home id = some p)
    (hp : ∀ j, place j = some p ↔ j.state = s) (id : String) :
    (m.lookup id).isSome ↔ ∃ j, b.jobs.lookup id = some j ∧ j.state = s := by
  rw [hm, home, Option.bind_eq_some_iff]
  simp only [hp]

/-- What the row of a queue should be. -/
def trueRow (b : Broker) (q : String) : QueueStats :=
  ⟨q, b.depth q .pending, b.depth q .active, b.depth q .scheduled, b.depth q .retry⟩

/-- **The rows of `Stats`**: one for each registered queue, and each tells the truth. -/
theorem lookup_stats (h : Located b) (hreg : b.Registered) {now : Time} {st : Stats}
    (hst : b.stats now = .ok st) (q : String) :
    st.queues.lookup q = if q ∈ b.queues then some (b.trueRow q) else none := by
  have hactive := isSome_lookup_iff (fun id ↦ (h.counts id).2.1) fun _ ↦ place_eq_some_iff
  have hscheduled := isSome_lookup_iff (fun id ↦ (h.counts id).2.2.1) fun _ ↦ place_eq_some_iff
  have hretry := isSome_lookup_iff (fun id ↦ (h.counts id).2.2.2.1) fun _ ↦ place_eq_some_iff
  obtain ⟨h₁, hrow₁⟩ := row_pass (f := fun qs ↦ { qs with active := qs.active + 1 }) hreg
    (fun _ ↦ rfl) hactive b.rows_rows₀
  obtain ⟨h₂, hrow₂⟩ := row_pass (f := fun qs ↦ { qs with scheduled := qs.scheduled + 1 }) hreg
    (fun _ ↦ rfl) hscheduled h₁
  obtain ⟨h₃, hrow₃⟩ := row_pass (f := fun qs ↦ { qs with retry := qs.retry + 1 }) hreg
    (fun _ ↦ rfl) hretry h₂
  rw [stats] at hst
  split_ifs at hst
  obtain rfl := Except.ok.inj hst
  refine (h₃.lookup q).trans ?_
  split_ifs with hq
  · have hrow₀ : Tally.row emptyRow b.rows₀ q = ⟨q, (b.pending q).length, 0, 0, 0⟩ := by
      rw [Tally.row, lookup_rows₀, if_pos (AList.mem_keys.1 hq), Option.getD_some]
    have hcount₁ := Tally.iterate_count
      (f := fun r : QueueStats ↦ { r with active := r.active + 1 })
      (g := fun i ↦ ⟨q, b.depth q .pending, i, 0, 0⟩) (fun _ ↦ rfl) (b.depth q .active) 0
    have hcount₂ := Tally.iterate_count
      (f := fun r : QueueStats ↦ { r with scheduled := r.scheduled + 1 })
      (g := fun i ↦ ⟨q, b.depth q .pending, 0 + b.depth q .active, i, 0⟩) (fun _ ↦ rfl)
      (b.depth q .scheduled) 0
    have hcount₃ := Tally.iterate_count (f := fun r : QueueStats ↦ { r with retry := r.retry + 1 })
      (g := fun i ↦ ⟨q, b.depth q .pending, 0 + b.depth q .active, 0 + b.depth q .scheduled, i⟩)
      (fun _ ↦ rfl) (b.depth q .retry) 0
    rw [hrow₃, hrow₂, hrow₁, hrow₀, h.length_pending, hcount₁, hcount₂, hcount₃]
    simp only [zero_add]
    rfl
  · rfl

/-! ### The sum over all queues -/

/-- The jobs that wait or run, of one row. -/
def rowTotal (r : QueueStats) : ℤ := r.pending + r.active + r.scheduled + r.retry

/-- The jobs in a state, queue by queue. -/
theorem inState_eq_sum (hreg : b.Registered) (s : State) :
    b.inState s = (b.queues.keys.map fun q ↦ b.depth q s).sum := by
  refine Tally.countP_eq_sum_classes (fun e : Sigma fun _ : String ↦ Job ↦ e.2.queue)
    b.queues.keys_nodup _ _ fun e he ↦ ?_
  exact AList.mem_keys.1 (hreg e.1 e.2 (AList.mem_lookup_iff.2 he))

/-- The stored jobs, state by state. -/
theorem length_jobs (h : Located b) : b.jobs.entries.length = b.inState .pending +
    b.inState .active + b.inState .scheduled + b.inState .retry + b.inState .dead := by
  have hsum := Tally.countP_eq_sum_classes (fun e : Sigma fun _ : String ↦ Job ↦ e.2.state)
    (show [State.pending, .active, .scheduled, .retry, .dead].Nodup by decide) (fun _ ↦ true)
    b.jobs.entries fun e he ↦ ?_
  · simp only [List.countP_true, Bool.true_and, List.map_cons, List.map_nil, List.sum_cons,
      List.sum_nil] at hsum
    rw [hsum]
    simp only [inState]
    omega
  · have hhoused := h.housed e.1 e.2 (AList.mem_lookup_iff.2 he)
    rw [place] at hhoused
    rcases hstate : e.2.state <;> simp_all

/-- **The rows of `Stats` add up** to the jobs that are not dead. -/
theorem sum_stats (h : Located b) (hreg : b.Registered) {now : Time} {st : Stats}
    (hst : b.stats now = .ok st) :
    (st.queues.entries.map fun e ↦ rowTotal e.2).sum + b.inState .dead =
      b.jobs.entries.length := by
  have hlookup := lookup_stats h hreg hst
  have hkeys : st.queues.keys.Perm b.queues.keys := by
    refine (List.perm_ext_iff_of_nodup st.queues.keys_nodup b.queues.keys_nodup).2 fun q ↦ ?_
    rw [← AList.mem_keys, ← AList.mem_keys, ← AList.lookup_isSome, hlookup]
    split_ifs with hq <;> simp [hq]
  have hrows : st.queues.entries.map (fun e ↦ rowTotal e.2) =
      st.queues.keys.map fun q ↦ rowTotal (b.trueRow q) := by
    rw [AList.keys, List.keys, List.map_map]
    refine List.map_congr_left fun e he ↦ ?_
    have hrow := hlookup e.1
    rw [AList.mem_lookup_iff.2 he] at hrow
    split_ifs at hrow
    exact congrArg rowTotal (Option.some.inj hrow)
  have hsum : ((b.queues.keys.map fun q ↦ rowTotal (b.trueRow q)).sum : ℤ) =
      (b.inState .pending + b.inState .active + b.inState .scheduled + b.inState .retry : ℕ) := by
    simp only [inState_eq_sum hreg, ← List.sum_map_add, Nat.cast_list_sum, List.map_map]
    rfl
  rw [hrows, (hkeys.map _).sum_eq, hsum, length_jobs h]
  push_cast
  ring

end Broker

open Broker

variable {b b' : Broker} {c : Call} {h : List (Turn Broker Call)}

/-! ### The registered queues -/

theorem registered_store (hreg : b.Registered) (now : Time) (j : Job) :
    (b.store now j).Registered := by
  have hqueues : (b.store now j).queues = b.queues.insert j.queue () := by
    rw [store]
    split_ifs <;> rfl
  intro id j' hj'
  rw [lookup_store] at hj'
  rw [hqueues, AList.mem_insert]
  by_cases hid : id = j.id
  · rw [if_pos hid] at hj'
    rw [← Option.some.inj hj']
    exact .inl rfl
  · rw [if_neg hid] at hj'
    exact .inr (hreg id j' hj')

theorem registered_update {now : Time} {op : Op} (hreg : b.Registered)
    (hupdate : Update now b op b') : b'.Registered := by
  by_cases hservice : op.isService = true
  · cases hupdate with
    | acquire | release | schedule | fire | remove => exact hreg
    | _ => cases hservice
  · by_cases henq : ∃ newID o, op = .enqueue newID o
    · obtain ⟨newID, o, rfl⟩ := henq
      cases hupdate with
      | store newID o j => exact registered_store hreg now j
    · have hkeeps := keeps_update (by simpa using hservice) (fun i o h ↦ henq ⟨i, o, h⟩) hupdate
      have hbeside := beside_update (fun i o h ↦ henq ⟨i, o, h⟩) hupdate
      intro id j' hj'
      obtain ⟨j, hj, hsame⟩ := hkeeps.tasks id j' hj'
      rw [hsame.queue_eq, hbeside.queues]
      exact hreg id j hj

/-- Every call keeps the queues of the stored jobs registered. -/
theorem registered_of_run {ok : List (Turn Broker Call) → Broker → Call → Prop}
    (hrun : machine.Run ok h b) : b.Registered := by
  refine hrun.invariant (P := fun _ b ↦ b.Registered) (fun id j hj ↦ by simp [machine, new] at hj)
    fun h b c _ hreg _ ↦ ?_
  exact rel_exec (R := fun b b' ↦ b.Registered → b'.Registered) (fun b ↦ id)
    (fun hR hR' ↦ hR' ∘ hR) (fun b b' hupdate hreg ↦ registered_update hreg hupdate) b hreg

/-! ### The running totals -/

/-- An `Ack` that succeeded. -/
def finished (t : Turn Broker Call) : Bool :=
  match t.input.op, reply t with
  | .ack _ _, .done => true
  | _, _ => false

/-- The number of jobs that a turn put on the dead-letter list. -/
def entered (t : Turn Broker Call) : ℕ :=
  (machine.after t).dead.countP fun id ↦ decide (id ∉ t.before.dead)

/-- The operations that dead-letter jobs. -/
def Op.buries : Op → Bool
  | .nack _ _ _ _ | .kill _ _ _ | .reap _ _ => true
  | _ => false

/-- Jobs are added to the dead-letter list, and each is counted as failed. -/
def Buries (b b' : Broker) : Prop :=
  b'.processed = b.processed ∧ ∃ l, b'.dead = b.dead ++ l ∧ b'.failed = b.failed + l.length

/-- No job enters the dead-letter list, and none is counted as failed. -/
def Spares (b b' : Broker) : Prop := b'.dead ⊆ b.dead ∧ b'.failed = b.failed

namespace Buries

theorem refl (b : Broker) : Buries b b := ⟨rfl, [], by simp, by simp⟩

theorem trans {b'' : Broker} (h : Buries b b') (h' : Buries b' b'') : Buries b b'' := by
  obtain ⟨hp, l, hdead, hfailed⟩ := h
  obtain ⟨hp', l', hdead', hfailed'⟩ := h'
  refine ⟨hp'.trans hp, l ++ l', by rw [hdead', hdead, List.append_assoc], ?_⟩
  rw [hfailed', hfailed, List.length_append]
  push_cast
  ring

/-- The dead-letter list is as it was. -/
theorem of_same (hp : b'.processed = b.processed) (hdead : b'.dead = b.dead)
    (hfailed : b'.failed = b.failed) : Buries b b' := ⟨hp, [], by simp [hdead], by simp [hfailed]⟩

/-- One job is dead-lettered. -/
theorem of_dead {x : String} (hp : b'.processed = b.processed) (hdead : b'.dead = b.dead ++ [x])
    (hfailed : b'.failed = b.failed + 1) : Buries b b' := ⟨hp, [x], hdead, hfailed⟩

end Buries

theorem buries_exec (hop : c.op.buries = true) : Buries b (exec b c).2 := by
  refine rel_exec .refl .trans (fun b b' hupdate ↦ ?_) b
  obtain ⟨now, op⟩ := c
  cases hupdate with
  | postpone w hj => exact .of_same rfl rfl rfl
  | exhaust w r hj => exact .of_dead rfl rfl rfl
  | kill w hj => exact .of_dead rfl rfl rfl
  | recover queues limit hj =>
    rw [recover]
    split_ifs
    · exact .of_dead rfl rfl rfl
    · exact .of_same rfl rfl rfl
  | _ => cases hop

theorem spares_exec (hop : c.op.buries = false) : Spares b (exec b c).2 := by
  refine rel_exec (fun b ↦ ⟨fun _ ↦ id, rfl⟩)
    (fun h h' ↦ ⟨fun _ hx ↦ h.1 (h'.1 hx), h'.2.trans h.2⟩) (fun b b' hupdate ↦ ?_) b
  obtain ⟨now, op⟩ := c
  cases hupdate with
  | store newID o j =>
    rw [store]
    split_ifs <;> exact ⟨fun _ ↦ id, rfl⟩
  | leave limit set => rcases set with - | - <;> exact ⟨fun _ ↦ id, rfl⟩
  | promote limit set => rcases set with - | - <;> exact ⟨fun _ ↦ id, rfl⟩
  | replay ids hj => exact ⟨List.erase_subset, rfl⟩
  | purge ids i => exact ⟨List.erase_subset, rfl⟩
  | postpone | exhaust | kill | recover => cases hop
  | _ => exact ⟨fun _ ↦ id, rfl⟩

/-- **What a turn adds to `Failed`**: the number of jobs it put on the dead-letter list, which only
a `Nack`, a `Kill` or a `Reap` does. -/
theorem failed_after {t : Turn Broker Call} (hloc : Located (machine.after t)) :
    (machine.after t).failed = t.before.failed + entered t ∧
      (entered t ≠ 0 → t.input.op.buries = true) := by
  by_cases hop : t.input.op.buries = true
  · obtain ⟨-, l, hdead, hfailed⟩ : Buries t.before (machine.after t) := buries_exec hop
    have hnodup : (machine.after t).dead.Nodup :=
      nodup_of_counts fun id ↦ (hloc.counts id).2.2.2.2
    rw [hdead, List.nodup_append] at hnodup
    have hentered : entered t = l.length := by
      rw [entered, hdead, List.countP_append,
        List.countP_eq_zero.2 fun id hid ↦ by simpa using hid, zero_add, List.countP_eq_length]
      exact fun id hid ↦ decide_eq_true fun hbefore ↦ hnodup.2.2 id hbefore id hid rfl
    exact ⟨by rw [hfailed, hentered], fun _ ↦ hop⟩
  · obtain ⟨hdead, hfailed⟩ : Spares t.before (machine.after t) :=
      spares_exec (by simpa using hop)
    have hentered : entered t = 0 :=
      List.countP_eq_zero.2 fun id hid ↦ by simpa using hdead hid
    exact ⟨by rw [hfailed, hentered, Nat.cast_zero, add_zero], fun h ↦ absurd hentered h⟩

/-- An `Ack` counts one job as processed, or fails. -/
theorem processed_ack (b : Broker) (w i : String) :
    (∃ e, (b.ack w i).1 = .error e ∧ (b.ack w i).2.processed = b.processed) ∨
      (b.ack w i).1 = .ok () ∧ (b.ack w i).2.processed = b.processed + 1 := by
  rw [Broker.ack]
  split_ifs
  · exact .inl ⟨_, rfl, rfl⟩
  · rcases b.ownedActive w i with e | j
    · exact .inl ⟨_, rfl, rfl⟩
    · dsimp only
      split_ifs
      · exact .inl ⟨_, rfl, rfl⟩
      · exact .inr ⟨rfl, rfl⟩

theorem processed_exec (hack : ∀ w i, c.op ≠ .ack w i) : (exec b c).2.processed = b.processed := by
  refine rel_exec (R := fun b b' ↦ b'.processed = b.processed) (fun _ ↦ rfl)
    (fun h h' ↦ h'.trans h) (fun b b' hupdate ↦ ?_) b
  obtain ⟨now, op⟩ := c
  cases hupdate with
  | complete w i => exact absurd rfl (hack w i)
  | store newID o j =>
    rw [store]
    split_ifs <;> rfl
  | recover queues limit hj =>
    rw [recover]
    split_ifs <;> rfl
  | leave limit set => rcases set with - | - <;> rfl
  | promote limit set => rcases set with - | - <;> rfl
  | _ => rfl

/-- **What a turn adds to `Processed`.** -/
theorem processed_after (t : Turn Broker Call) :
    (machine.after t).processed = t.before.processed + if finished t then 1 else 0 := by
  by_cases hack : ∃ w i, t.input.op = .ack w i
  · obtain ⟨w, i, hop⟩ := hack
    have hexec : exec t.before t.input = (t.before.ack w i).map (.of fun _ ↦ .done) id := by
      rw [exec, hop]
    have hafter : machine.after t = (t.before.ack w i).2 := congrArg Prod.snd hexec
    have hreply : reply t = .of (fun _ ↦ .done) (t.before.ack w i).1 := congrArg Prod.fst hexec
    rw [hafter, finished, hop, hreply]
    rcases processed_ack t.before w i with ⟨e, herr, hsame⟩ | ⟨hok, hmore⟩
    · rw [herr, hsame]
      exact (add_zero _).symm
    · rw [hok, hmore]
      rfl
  · have hsame : (machine.after t).processed = t.before.processed :=
      processed_exec fun w i h ↦ hack ⟨w, i, h⟩
    have hnot : finished t = false := by
      rw [finished]
      split
      · next w i hop _ => exact absurd ⟨w, i, hop⟩ hack
      · rfl
    rw [hsame, hnot]
    exact (add_zero _).symm

/-- The running totals in every run. -/
theorem totals_of_run (hrun : machine.Run Fresh h b) :
    b.processed = h.countP finished ∧ b.failed = (h.map entered).sum := by
  induction hrun with
  | start => exact ⟨rfl, rfl⟩
  | @step h b c hrun hok ih =>
    have hprocessed := processed_after ⟨b, c⟩
    have hfailed := (failed_after (t := ⟨b, c⟩) (lives_of_fresh (hrun.step c hok)).1).1
    refine ⟨hprocessed.trans ?_, hfailed.trans ?_⟩
    · rw [ih.1, List.countP_cons]
      push_cast
      rfl
    · rw [ih.2, List.map_cons, List.sum_cons]
      push_cast
      ring

/-- **Stats tells the truth**, in every run that enqueues under fresh IDs. -/
theorem stats_tells_the_truth (hrun : machine.Run Fresh h b) (now : Time) :
    (b.closed = true ∧ b.stats now = .error .closed) ∨
    ∃ st, b.stats now = .ok st ∧
      (∀ q, st.queues.lookup q = if q ∈ b.queues then some (b.trueRow q) else none) ∧
      (∀ id j, b.jobs.lookup id = some j → j.queue ∈ b.queues) ∧
      st.dead = b.inState .dead ∧
      (st.queues.entries.map fun e ↦ rowTotal e.2).sum + st.dead =
        b.jobs.entries.length ∧
      st.processed = h.countP finished ∧
      st.failed = (h.map entered).sum ∧
      ∀ t ∈ h, entered t ≠ 0 → t.input.op.buries = true := by
  have hloc := (lives_of_fresh hrun).1
  have hreg := registered_of_run hrun
  obtain ⟨hprocessed, hfailed⟩ := totals_of_run hrun
  by_cases hclosed : b.closed = true
  · exact .inl ⟨hclosed, by rw [stats, if_pos hclosed]⟩
  · obtain ⟨st, hst, hdead, hst_processed, hst_failed⟩ : ∃ st, b.stats now = .ok st ∧
        st.dead = b.dead.length ∧ st.processed = b.processed ∧ st.failed = b.failed := by
      rw [stats, if_neg hclosed]
      exact ⟨_, rfl, rfl, rfl, rfl⟩
    rw [hloc.length_dead] at hdead
    refine .inr ⟨st, hst, lookup_stats hloc hreg hst, hreg, hdead, ?_,
      hst_processed.trans hprocessed, hst_failed.trans hfailed, fun t ht ↦ ?_⟩
    · rw [hdead]
      exact sum_stats hloc hreg hst
    · obtain ⟨older, hrun', hok⟩ := hrun.of_mem ht
      exact (failed_after (lives_of_fresh (hrun'.step t.input hok)).1).2

/-- A job that was killed and purged is counted as failed, while a pending job is counted in its
queue. -/
theorem stats_tells_the_truth_purged : ∃ h b st, machine.Run Fresh h b ∧ b.stats 9 = .ok st ∧
    b.jobs.lookup "a" = none ∧ st.failed = 1 ∧ st.dead = 0 ∧
    st.queues.lookup "q" = some ⟨"q", 1, 0, 0, 0⟩ := by
  have hrun : machine.Run Fresh _ _ := .step ⟨5, .purgeDead []⟩
    (.step ⟨4, .kill "w" "a" "bad"⟩ (.step ⟨3, .dequeue ⟨"w", ["q"], 10⟩⟩
      (.step ⟨2, .enqueue "b" (some (Job.plain "q" "t" 3))⟩
        (.step ⟨1, .enqueue "a" (some (Job.plain "q" "t" 3))⟩ .start
          ⟨by simp, by simp⟩) ⟨?_, by simp⟩) ⟨by simp, by simp⟩) ⟨by simp, by simp⟩)
    ⟨by simp, by simp⟩
  · rcases stats_tells_the_truth hrun 9 with
      ⟨hclosed, -⟩ | ⟨st, hst, hrows, -, hdead, -, -, hfailed, -⟩
    · cases hclosed
    · exact ⟨_, _, st, hrun, hst, by decide, hfailed, hdead, hrows "q"⟩
  · rintro newID j ⟨⟩ t ht j' hreply
    obtain rfl := List.mem_singleton.1 ht
    cases hreply
    decide

end TaskQueue.Memory
