import TaskQueue.Memory.Location
import TaskQueue.Delivery

/-!
# Every call follows the lifecycle graph

`job.go` draws the lifecycle as a graph, `CanTransition`, and of all the operations only the
in-memory `Ack` asks it. Everywhere else the new state is assigned because of the container the job
was found in. This module says that the graph is followed all the same, by both brokers and from
every reachable state, and that the **reply** of a call is the number of jobs whose state it
changed.

Both are read off the lifecycle automaton. An event it accepts is an edge of the graph, or it
renews a lease and changes no state (`Life.canTransition_of_advance`). A call is a list of events,
and either all of them are renewals or each is about another job (`Amounts`), so that the events
can be counted for the jobs.

Three things that happen to a stored job are not edges. An `Ack` may delete the envelope, which
counts as completing it; `PurgeDead` removes dead jobs; and a completed hash in Redis expires.
-/

namespace TaskQueue

open Keyed

/-! ### Edges of the automaton -/

/-- The state a job in this phase is stored in. -/
def Phase.state : Phase → State
  | .pending => .pending
  | .active _ _ => .active
  | .scheduled _ => .scheduled
  | .retry _ => .retry
  | .dead => .dead
  | .done => .completed

/-- Whether the event only renews a lease. -/
def Event.isRenewal : Event → Bool
  | .extended _ _ => true
  | _ => false

namespace Life

/-- The state of a job; the empty one under a name that was never enqueued. -/
def stateOf : Option Life → State
  | none => .none
  | some l => l.phase.state

variable {spent : ℤ → ℤ → Bool} {o o' v : Option Life} {e : Event} {evs : List Event}

theorem stateOf_fallTo (l : Life) (n : ℤ) (p : Phase) :
    stateOf (some { l with recoveries := n, phase := l.fallTo spent p }) = .dead ∨
      stateOf (some { l with recoveries := n, phase := l.fallTo spent p }) = p.state := by
  unfold fallTo
  split
  · exact .inl rfl
  · exact .inr rfl

/-- **The states an event leads from and to.** -/
theorem states_of_advance (he : advance spent o e = some o') :
    match e with
    | .enqueued _ => stateOf o = .none ∧ (stateOf o' = .pending ∨ stateOf o' = .scheduled)
    | .claimed _ _ => stateOf o = .pending ∧ stateOf o' = .active
    | .acked _ => stateOf o = .active ∧ stateOf o' = .completed
    | .nacked _ _ => stateOf o = .active ∧ (stateOf o' = .dead ∨ stateOf o' = .retry)
    | .killed _ => stateOf o = .active ∧ stateOf o' = .dead
    | .extended _ _ => stateOf o = .active ∧ stateOf o' = .active
    | .reaped _ => stateOf o = .active ∧ (stateOf o' = .dead ∨ stateOf o' = .pending)
    | .promoted _ => (stateOf o = .scheduled ∨ stateOf o = .retry) ∧ stateOf o' = .pending
    | .replayed => stateOf o = .dead ∧ stateOf o' = .pending
    | .purged => stateOf o = .dead ∧ stateOf o' = .completed := by
  have hstate : ∀ {l : Life} {p : Phase}, l.phase = p → stateOf (some l) = p.state :=
    fun hp ↦ congrArg Phase.state hp
  cases e with
  | enqueued l =>
    obtain ⟨rfl, hnew, rfl⟩ := advance_enqueued_iff.1 he
    rcases hnew with hp | ⟨due, hp⟩
    · exact ⟨rfl, .inl (hstate hp)⟩
    · exact ⟨rfl, .inr (hstate hp)⟩
  | claimed w d =>
    obtain ⟨l, rfl, hp, rfl⟩ := advance_claimed_iff.1 he
    exact ⟨hstate hp, rfl⟩
  | acked w =>
    obtain ⟨l, d, rfl, hp, rfl⟩ := advance_acked_iff.1 he
    exact ⟨hstate hp, rfl⟩
  | nacked w r =>
    obtain ⟨l, d, rfl, hp, rfl⟩ := advance_nacked_iff.1 he
    exact ⟨hstate hp, stateOf_fallTo l l.recoveries (.retry r)⟩
  | killed w =>
    obtain ⟨l, d, rfl, hp, rfl⟩ := advance_killed_iff.1 he
    exact ⟨hstate hp, rfl⟩
  | extended w d =>
    obtain ⟨l, d', rfl, hp, rfl⟩ := advance_extended_iff.1 he
    exact ⟨hstate hp, rfl⟩
  | reaped now =>
    obtain ⟨l, w, d, rfl, hp, -, rfl⟩ := advance_reaped_iff.1 he
    exact ⟨hstate hp, stateOf_fallTo l (l.recoveries + 1) .pending⟩
  | promoted now =>
    obtain ⟨l, t, rfl, hp, -, rfl⟩ := advance_promoted_iff.1 he
    exact ⟨hp.imp hstate hstate, rfl⟩
  | replayed =>
    obtain ⟨l, rfl, hp, rfl⟩ := advance_replayed_iff.1 he
    exact ⟨hstate hp, rfl⟩
  | purged =>
    obtain ⟨l, rfl, hp, rfl⟩ := advance_purged_iff.1 he
    exact ⟨hstate hp, rfl⟩

/-- **Every event is an edge**, unless it renews a lease or purges a dead job. -/
theorem canTransition_of_advance (he : advance spent o e = some o') (hmove : e.isRenewal = false)
    (hpurge : e ≠ .purged) : canTransition (stateOf o) (stateOf o') = true := by
  have hstates := states_of_advance he
  cases e with
  | enqueued l | nacked w r | reaped now =>
    obtain ⟨hsrc, hdst | hdst⟩ := hstates <;> rw [hsrc, hdst] <;> rfl
  | claimed w d | acked w | killed w | replayed =>
    rw [hstates.1, hstates.2]
    rfl
  | promoted now =>
    obtain ⟨hsrc | hsrc, hdst⟩ := hstates <;> rw [hsrc, hdst] <;> rfl
  | extended w d => cases hmove
  | purged => exact absurd rfl hpurge

/-- Renewals change no state, and only an active job is renewed. -/
theorem stateOf_of_renewals (hrun : evs.foldlM (advance spent) o = some o')
    (hall : ∀ e ∈ evs, e.isRenewal = true) :
    stateOf o' = stateOf o ∧ (evs ≠ [] → stateOf o' = .active) := by
  refine foldlM_invariant (P := fun past o' ↦ stateOf o' = stateOf o ∧
    (past ≠ [] → stateOf o' = .active)) ⟨rfl, absurd rfl⟩ ?_ hrun
  intro past y e y' hmem hP he
  cases e with
  | extended w d =>
    obtain ⟨hsrc, hdst⟩ := states_of_advance he
    exact ⟨by rw [hdst, ← hsrc, hP.1], fun _ ↦ hdst⟩
  | _ => cases hall _ hmem

/-- A job that is not done is shown in its state. -/
theorem stateOf_of_shown (hshown : Shown o v) (hdone : stateOf o ≠ .completed) :
    stateOf v = stateOf o := by
  rcases hshown with rfl | ⟨-, l, rfl, hphase⟩
  · rfl
  · exact absurd (by rw [stateOf, hphase]; rfl) hdone

end Life

/-! ### Counting the jobs of a call -/

/-- What a call amounts to that reports `n`: it renews leases and moves nothing, or it makes `n`
moves, each of another job. -/
def Amounts (evs : List (String × Event)) (n : ℕ) : Prop :=
  (∀ x ∈ evs, x.2.isRenewal = true) ∧ n = 0 ∨
    (∀ x ∈ evs, x.2.isRenewal = false) ∧ (evs.map Prod.fst).Nodup ∧ evs.length = n

namespace Amounts

variable {evs : List (String × Event)} {n : ℕ} {e : Event} {id : String} {ids : List String}

theorem nil : Amounts [] 0 := .inl ⟨by simp, rfl⟩

theorem single (id : String) (he : e.isRenewal = false) : Amounts [(id, e)] 1 :=
  .inr ⟨by simpa using he, List.nodup_singleton _, rfl⟩

/-- One event that happens to each of a list of jobs. -/
theorem map (hids : ids.Nodup) (he : e.isRenewal = false) :
    Amounts (ids.map fun i ↦ (i, e)) ids.length := by
  refine .inr ⟨by simp [he], ?_, List.length_map _⟩
  rw [List.map_map]
  simpa [Function.comp_def] using hids

theorem renewals (ids : List String) (he : e.isRenewal = true) :
    Amounts (ids.map fun i ↦ (i, e)) 0 := .inl ⟨by simp [he], rfl⟩

/-- A job that is moved is moved once, and by nothing else. -/
theorem eventsAt_eq (h : Amounts evs n) (hmem : (id, e) ∈ evs) (he : e.isRenewal = false) :
    eventsAt id evs = [e] := by
  rcases h with ⟨hall, -⟩ | ⟨-, hnodup, -⟩
  · rw [hall _ hmem] at he
    cases he
  · clear he
    induction evs with
    | nil => cases hmem
    | cons x evs ih =>
      rw [List.map_cons, List.nodup_cons] at hnodup
      rcases List.mem_cons.1 hmem with rfl | hmem
      · rw [eventsAt_cons_self]
        refine congrArg (e :: ·) (List.eq_nil_iff_forall_not_mem.2 fun e' he' ↦ ?_)
        exact hnodup.1 (List.mem_map.2 ⟨_, mem_eventsAt.1 he', rfl⟩)
      · have hne : x.1 ≠ id := fun heq ↦ hnodup.1 (heq ▸ List.mem_map_of_mem hmem)
        rw [eventsAt_cons_of_ne hne]
        exact ih hmem hnodup.2

/-- **The reply counts the jobs.** If renewals change no state and every other event changes the
state of its job, then the jobs whose state changes are as many as the call reports. -/
theorem changed (h : Amounts evs n) {src dst : String → State}
    (hstay : ∀ id, (∀ e, (id, e) ∈ evs → e.isRenewal = true) → dst id = src id)
    (hmove : ∀ id e, (id, e) ∈ evs → e.isRenewal = false → src id ≠ dst id) :
    ∃ ids : List String, ids.Nodup ∧ ids.length = n ∧ ∀ id, id ∈ ids ↔ src id ≠ dst id := by
  rcases h with ⟨hall, rfl⟩ | ⟨hnone, hnodup, rfl⟩
  · refine ⟨[], List.nodup_nil, rfl, fun id ↦ ?_⟩
    simp [hstay id fun e he ↦ hall _ he]
  · refine ⟨evs.map Prod.fst, hnodup, List.length_map _, fun id ↦ ⟨fun hid ↦ ?_, fun hne ↦ ?_⟩⟩
    · obtain ⟨x, hx, rfl⟩ := List.mem_map.1 hid
      exact hmove x.1 x.2 hx (hnone x hx)
    · by_contra hid
      refine hne (hstay id fun e he ↦ ?_).symm
      exact absurd (List.mem_map_of_mem he) hid

end Amounts

/-- A call takes the jobs from the states `src` to the states `dst` as the lifecycle graph allows,
jobs that are `removed` aside, and it says of exactly how many it changed the state. -/
structure Lawful (src dst : String → State) (removed : String → Prop) (reported : ℕ) : Prop where
  edge : ∀ id, src id ≠ dst id → canTransition (src id) (dst id) = true ∨ removed id
  counted : ∃ ids : List String, ids.Nodup ∧ ids.length = reported ∧
    ∀ id, id ∈ ids ↔ src id ≠ dst id

/-- No edge of the graph is a loop. -/
theorem ne_of_canTransition {src dst : State} (h : canTransition src dst = true) : src ≠ dst := by
  rintro rfl
  cases src <;> cases h

/-- **A call is lawful** if the jobs it moves follow edges and the others stay in their states. -/
theorem Amounts.lawful {evs : List (String × Event)} {n : ℕ} (h : Amounts evs n)
    {src dst : String → State} {removed : String → Prop}
    (hstay : ∀ id, (∀ e, (id, e) ∈ evs → e.isRenewal = true) → dst id = src id)
    (hmove : ∀ id e, eventsAt id evs = [e] → e.isRenewal = false →
      canTransition (src id) (dst id) = true ∨ removed id ∧ src id ≠ dst id) :
    Lawful src dst removed n := by
  refine ⟨fun id hne ↦ ?_, h.changed hstay fun id e hmem he ↦ ?_⟩
  · by_cases hall : ∀ e, (id, e) ∈ evs → e.isRenewal = true
    · exact absurd (hstay id hall).symm hne
    · push Not at hall
      obtain ⟨e, hmem, he⟩ := hall
      replace he := Bool.eq_false_of_not_eq_true he
      exact (hmove id e (h.eventsAt_eq hmem he) he).imp_right And.left
  · rcases hmove id e (h.eventsAt_eq hmem he) he with hedge | ⟨-, hne⟩
    · exact ne_of_canTransition hedge
    · exact hne

/-! ### The in-memory broker -/

namespace Memory

open Broker

variable {b : Broker} {c : Call} {t : Turn Broker Call} {h : List (Turn Broker Call)} {id : String}

/-- The state a job is stored in; the empty one if it is not stored. -/
def stateOf (b : Broker) (id : String) : State := (b.jobs.lookup id).elim .none Job.state

/-- Whether the call is an `Ack` of this job that succeeds. -/
def acks (b : Broker) (c : Call) (id : String) : Bool :=
  match c.op, (exec b c).1 with
  | .ack _ i, .done => i = id
  | _, _ => false

/-- The state a call leaves a job in; an envelope that an `Ack` deletes counts as completed. -/
def stateAfter (b : Broker) (c : Call) (id : String) : State :=
  match (exec b c).2.jobs.lookup id with
  | some j => j.state
  | none => if acks b c id then .completed else .none

/-- How many jobs the call says it moved. -/
def reported (b : Broker) (c : Call) : ℕ :=
  match c.op, (exec b c).1 with
  | .enqueue _ _, .stored _ => 1
  | .dequeue _, .claimed _ => 1
  | .ack _ _, .done => 1
  | .nack _ _ _ _, .done => 1
  | .kill _ _ _, .done => 1
  | .reap _ _, .count n => n
  | .promote _, .count n => n
  | .retryDead _, .count n => n
  | .purgeDead _, .count n => n
  | _, _ => 0

theorem acks_iff : acks b c id = true ↔ ∃ w, (id, .acked w) ∈ events b c := by
  constructor
  · intro hacks
    unfold acks at hacks
    split at hacks
    · next w i hop hreply =>
      obtain rfl : i = id := of_decide_eq_true hacks
      exact ⟨w, mem_events_iff.2 ⟨hop, hreply⟩⟩
    · cases hacks
  · rintro ⟨w, hmem⟩
    obtain ⟨hop, hreply⟩ := mem_events_iff.1 hmem
    simp [acks, hop, hreply]

/-- A stored job's state is that of its life. -/
theorem stateOf_life (hloc : Located b) (id : String) :
    Life.stateOf (b.life id) = stateOf b id := by
  rcases hj : b.jobs.lookup id with - | j
  · rw [life_eq_none hj, stateOf, hj]
    rfl
  · have hhoused := hloc.housed id j hj
    rw [life_eq_some hj, stateOf, hj]
    show (b.phase id j).state = j.state
    cases hstate : j.state <;> simp_all [phase, place, Phase.state]

/-- The events of a call about one job lead from the life the call found to the one it left. -/
theorem fold_of_exec (hloc : Located b) (hsafe : Safe b c.op) (id : String) :
    ∃ o, (eventsAt id (events b c)).foldlM (Life.advance spent) (b.life id) = some o ∧
      Life.Shown o ((exec b c).2.life id) := by
  have hnew : ∀ i l, (i, .enqueued l) ∈ events b c →
      events b c = [(i, .enqueued l)] ∧ b.life i = none := by
    intro i l hmem
    obtain ⟨newID, o, j', hop, hreply, rfl, rfl⟩ := mem_events_iff.1 hmem
    obtain ⟨j, rfl, rfl⟩ := stored_of_exec hop hreply
    rw [hop] at hsafe
    exact ⟨by simp [events, hop, hreply], life_eq_none hsafe⟩
  obtain ⟨a, hfollows, hshown⟩ := (steps_exec hloc hsafe).path.follows (fun _ ↦ .refl _) hnew
  exact ⟨a id, hfollows id, hshown id⟩

/-- A job whose lease is at most renewed stays in its state. -/
theorem stateAfter_of_renewals (hloc : Located b) (hsafe : Safe b c.op)
    (hall : ∀ e, (id, e) ∈ events b c → e.isRenewal = true) :
    stateAfter b c id = stateOf b id := by
  have hsteps := steps_exec hloc hsafe
  have hacks : acks b c id = false := by
    refine eq_false_of_ne_true fun hacks ↦ ?_
    obtain ⟨w, hmem⟩ := acks_iff.1 hacks
    cases hall _ hmem
  have hafter : stateAfter b c id = stateOf (exec b c).2 id := by
    rw [stateAfter, stateOf, hacks]
    rcases (exec b c).2.jobs.lookup id with - | j <;> rfl
  rcases hevs : eventsAt id (events b c) with - | ⟨e, evs⟩
  · rw [hafter, stateOf, stateOf, hsteps.frame id fun e he ↦ ?_]
    have hin := mem_eventsAt.2 he
    rw [hevs] at hin
    cases hin
  · obtain ⟨o, hfold, hshown⟩ := fold_of_exec hloc hsafe id
    obtain ⟨hsame, hactive⟩ := Life.stateOf_of_renewals hfold fun e he ↦ hall e (mem_eventsAt.1 he)
    have hview := Life.stateOf_of_shown hshown (by rw [hactive (by simp [hevs])]; decide)
    rw [hafter, ← stateOf_life hsteps.located, hview, hsame, stateOf_life hloc]

/-- A job that is moved follows an edge of the graph, or is purged. -/
theorem canTransition_of_move (hloc : Located b) (hsafe : Safe b c.op) {e : Event}
    (hevs : eventsAt id (events b c) = [e]) (hmove : e.isRenewal = false) :
    canTransition (stateOf b id) (stateAfter b c id) = true ∨
      e = .purged ∧ stateOf b id = .dead ∧ stateAfter b c id = .none := by
  have hsteps := steps_exec hloc hsafe
  obtain ⟨o, hfold, hshown⟩ := fold_of_exec hloc hsafe id
  have hadv : Life.advance spent (b.life id) e = some o := by simpa [hevs] using hfold
  have hacks : acks b c id = true ↔ ∃ w, e = .acked w := by
    rw [acks_iff]
    simp [← mem_eventsAt, hevs, eq_comm]
  obtain ⟨l, rfl, hdone⟩ := Life.advance_done_iff hadv
  rcases hj : (exec b c).2.jobs.lookup id with - | j
  · -- the envelope is gone, so the job is done
    have hphase : l.phase = .done := by
      rw [life_eq_none hj] at hshown
      rcases hshown with h | ⟨-, _, ⟨⟩, h⟩
      · cases h
      · exact h
    have hend := hdone.1 hphase
    by_cases hpurge : e = .purged
    · subst hpurge
      obtain ⟨l₀, hl₀, hdead, -⟩ := Life.advance_purged_iff.1 hadv
      refine .inr ⟨rfl, ?_, ?_⟩
      · rw [← stateOf_life hloc, hl₀, Life.stateOf, hdead]
        rfl
      · have hno : acks b c id = false := by simpa using hacks
        rw [stateAfter, hj, hno]
        rfl
    · have hyes : acks b c id = true := by
        cases e with
        | acked w => exact hacks.2 ⟨w, rfl⟩
        | purged => exact absurd rfl hpurge
        | _ => cases hend
      have hedge := Life.canTransition_of_advance hadv hmove hpurge
      rw [stateOf_life hloc, Life.stateOf, hphase] at hedge
      rw [stateAfter, hj, hyes]
      exact .inl hedge
  · have hview : (exec b c).2.life id = some l := by
      rcases hshown with h | ⟨h, -⟩
      · exact h
      · rw [life_eq_some hj] at h
        cases h
    have hstate : stateAfter b c id = Life.stateOf (some l) := by
      rw [← hview, stateOf_life hsteps.located, stateAfter, stateOf, hj]
      rfl
    have hpurge : e ≠ .purged := by
      rintro rfl
      have hphase : l.phase = .done := hdone.2 rfl
      rw [life_eq_some hj] at hview
      obtain rfl := Option.some.inj hview
      have hhoused := hsteps.located.housed id j hj
      cases hs : j.state <;> simp_all [phase, place]
    refine .inl ?_
    rw [hstate, ← stateOf_life hloc]
    exact Life.canTransition_of_advance hadv hmove hpurge

theorem reaped_nodup (b : Broker) (now : Time) (queues : List String) (limit : ℤ) :
    (b.reaped now queues limit).Nodup := by
  rw [reaped]
  split_ifs
  · exact List.nodup_nil
  · exact (Table.keysOf_due_nodup _ _ _).sublist (List.take_sublist _ _)

theorem promoted_nodup (hloc : Located b) (now : Time) (limit : ℤ) :
    (b.promoted now limit).Nodup := by
  rw [promoted]
  split_ifs
  · exact List.nodup_nil
  · exact (hloc.dueJobs_nodup now).sublist ((List.take_sublist _ _).map _)

theorem purges_nodup (ids : List String) : ∀ b : Broker, (purges ids b).Nodup := by
  induction ids with
  | nil => exact fun b ↦ List.nodup_nil
  | cons id ids ih =>
    intro b
    rw [purges]
    rcases b.jobs.lookup id with - | j
    · exact ih b
    · refine List.nodup_cons.2 ⟨fun hmem ↦ ?_, ih _⟩
      have hgone := ((mem_purges_iff ids (b.purge id)).1 hmem).2
      rw [show (b.purge id).jobs.lookup id = none from AList.lookup_erase _ _] at hgone
      cases hgone

/-- **Every call amounts to what it reports.** -/
theorem amounts_events (hloc : Located b) (hsafe : Safe b c.op) :
    Amounts (events b c) (reported b c) := by
  obtain ⟨now, op⟩ := c
  cases op with
  | enqueue newID o =>
    have hnew : ∀ j, o = some j → b.jobs.lookup (j.assigned newID).id = none := by
      rintro j rfl
      exact hsafe
    rcases performs_enqueue hloc now hnew with ⟨e, he⟩ | ⟨a, ha, -⟩
    · simpa [events, reported, exec, he, Reply.of] using Amounts.nil
    · simpa [events, reported, exec, ha, Reply.of] using Amounts.single a.id rfl
  | dequeue o =>
    rcases performs_dequeue hloc now o with ⟨e, he⟩ | ⟨a, ha, -⟩
    · simpa [events, reported, exec, he, Reply.of] using Amounts.nil
    · simpa [events, reported, exec, ha, Reply.of] using Amounts.single a.id rfl
  | ack w i =>
    rcases performs_ack hloc w i with ⟨e, he⟩ | ⟨a, ha, -⟩
    · simpa [events, reported, exec, he, Reply.of] using Amounts.nil
    · simpa [events, reported, exec, ha, Reply.of] using Amounts.single i rfl
  | nack w i r reason =>
    rcases performs_nack hloc w i r reason with ⟨e, he⟩ | ⟨a, ha, -⟩
    · simpa [events, reported, exec, he, Reply.of] using Amounts.nil
    · simpa [events, reported, exec, ha, Reply.of] using Amounts.single i rfl
  | kill w i reason =>
    rcases performs_kill hloc w i reason with ⟨e, he⟩ | ⟨a, ha, -⟩
    · simpa [events, reported, exec, he, Reply.of] using Amounts.nil
    · simpa [events, reported, exec, ha, Reply.of] using Amounts.single i rfl
  | extend w ids vt =>
    rcases performs_extend hloc now w ids vt with ⟨e, he⟩ | ⟨a, ha, -⟩
    · simpa [events, reported, exec, he, Reply.of] using Amounts.nil
    · simpa [events, reported, exec, ha, Reply.of] using Amounts.renewals (b.renewed w ids) rfl
  | reap queues limit =>
    rcases tallies_reap hloc now queues limit with ⟨e, he⟩ | ⟨ha, -⟩
    · simpa [events, reported, exec, he, Reply.of] using Amounts.nil
    · simpa [events, reported, exec, ha, Reply.of] using
        Amounts.map (reaped_nodup b now queues limit) rfl
  | promote limit =>
    rcases tallies_promote hloc now limit with ⟨e, he⟩ | ⟨ha, -⟩
    · simpa [events, reported, exec, he, Reply.of] using Amounts.nil
    · simpa [events, reported, exec, ha, Reply.of] using
        Amounts.map (promoted_nodup hloc now limit) rfl
  | retryDead ids =>
    rcases tallies_retryDead hloc (hloc.selectDeadLocked_nodup hsafe) with ⟨e, he⟩ | ⟨ha, -⟩
    · simpa [events, reported, exec, he, Reply.of] using Amounts.nil
    · simpa [events, reported, exec, ha, Reply.of] using
        Amounts.map (hloc.selectDeadLocked_nodup hsafe) rfl
  | purgeDead ids =>
    rcases tallies_purgeDead hloc ids with ⟨e, he⟩ | ⟨ha, -⟩
    · simpa [events, reported, exec, he, Reply.of] using Amounts.nil
    · simpa [events, reported, exec, ha, Reply.of] using
        Amounts.map (purges_nodup (b.selectDeadLocked ids) b) rfl
  | _ => simpa [events, reported] using Amounts.nil

/-- The call removes this job: it is dead, and the call is a `PurgeDead`. -/
def Removes (b : Broker) (c : Call) (id : String) : Prop :=
  (∃ ids, c.op = .purgeDead ids) ∧ stateOf b id = .dead ∧ stateAfter b c id = .none

theorem lawful_exec (hloc : Located b) (hsafe : Safe b c.op) :
    Lawful (stateOf b) (stateAfter b c) (Removes b c) (reported b c) := by
  refine (amounts_events hloc hsafe).lawful (fun id ↦ stateAfter_of_renewals hloc hsafe)
    fun id e hevs he ↦ ?_
  rcases canTransition_of_move hloc hsafe hevs he with h | ⟨rfl, hsrc, hdst⟩
  · exact .inl h
  · have hmem : (id, .purged) ∈ events b c := mem_eventsAt.1 (by simp [hevs])
    obtain ⟨ids, -, hop, -⟩ := mem_events_iff.1 hmem
    exact .inr ⟨⟨⟨ids, hop⟩, hsrc, hdst⟩, by simp [hsrc, hdst]⟩

end Memory

/-! ### The Redis broker -/

namespace Redis

open Store

variable {cfg : Config} {s : Store} {c : Call} {h : List (Turn Store Call)} {id : String}

/-- The state a job is stored in; the empty one if it has no hash. -/
def stateOf (s : Store) (id : String) : State := (s.job id).elim .none fun e ↦ e.hash.state

section

variable (cfg)

/-- Whether the call is an `Ack` of this job that succeeds. -/
def acks (s : Store) (c : Call) (id : String) : Bool :=
  match c.op, (exec cfg s c).1 with
  | .ack _ i, .done => i = id
  | _, _ => false

/-- The state a call leaves a job in; a hash that an `Ack` deletes counts as completed. -/
def stateAfter (s : Store) (c : Call) (id : String) : State :=
  match (exec cfg s c).2.job id with
  | some e => e.hash.state
  | none => if acks cfg s c id then .completed else .none

/-- How many jobs the call says it moved. -/
def reported (s : Store) (c : Call) : ℕ :=
  match c.op, (exec cfg s c).1 with
  | .enqueue _ _ _, .stored _ => 1
  | .dequeue _, .claimed _ => 1
  | .ack _ _, .done => 1
  | .nack _ _ _ _, .done => 1
  | .kill _ _ _, .done => 1
  | .reap _ _, .count n => n
  | .promote _, .count n => n
  | _, _ => 0

end

theorem acks_iff : acks cfg s c id = true ↔ ∃ w, (id, .acked w) ∈ events cfg s c := by
  constructor
  · intro hacks
    unfold acks at hacks
    split at hacks
    · next w i hop hreply =>
      obtain rfl : i = id := of_decide_eq_true hacks
      exact ⟨w, mem_events_iff.2 ⟨hop, hreply⟩⟩
    · cases hacks
  · rintro ⟨w, hmem⟩
    obtain ⟨hop, hreply⟩ := mem_events_iff.1 hmem
    simp [acks, hop, hreply]

/-- A stored job's state is that of its life. -/
theorem stateOf_life (hs : Located s) (id : String) : Life.stateOf (s.life id) = stateOf s id := by
  rcases he : s.job id with - | e
  · rw [life_eq_none he, stateOf, he]
    rfl
  · have hknown := hs.known id e he
    rw [life_eq_some he, stateOf, he]
    show (s.phase id e.hash).state = e.hash.state
    cases hstate : e.hash.state <;> simp_all [phase, Phase.state]

/-- A job whose lease is at most renewed stays in its state. -/
theorem stateAfter_of_renewals (hs : Located s) (hsafe : Safe (seen cfg s c) c.op)
    (hall : ∀ e, (id, e) ∈ events cfg s c → e.isRenewal = true) :
    stateAfter cfg s c id = stateOf (seen cfg s c) id := by
  have hsteps := steps_exec hs hsafe
  have hacks : acks cfg s c id = false := by
    refine eq_false_of_ne_true fun hacks ↦ ?_
    obtain ⟨w, hmem⟩ := acks_iff.1 hacks
    cases hall _ hmem
  have hafter : stateAfter cfg s c id = stateOf (exec cfg s c).2 id := by
    rw [stateAfter, stateOf, hacks]
    rcases (exec cfg s c).2.job id with - | e <;> rfl
  rcases hevs : eventsAt id (events cfg s c) with - | ⟨e, evs⟩
  · rw [hafter, stateOf, stateOf, hsteps.frame id fun e he ↦ ?_]
    have hin := mem_eventsAt.2 he
    rw [hevs] at hin
    cases hin
  · obtain ⟨o, hfold, hshown⟩ := fold_of_exec hs hsafe id
    obtain ⟨hsame, hactive⟩ := Life.stateOf_of_renewals hfold fun e he ↦ hall e (mem_eventsAt.1 he)
    have hview := Life.stateOf_of_shown hshown (by rw [hactive (by simp [hevs])]; decide)
    have hseen : Located (seen cfg s c) := (hs.live cfg.visible c.now).1
    rw [hafter, ← stateOf_life hsteps.located, hview, hsame, stateOf_life hseen]

/-- A job that is moved goes where the automaton takes it. -/
theorem stateAfter_of_move (hs : Located s) (hsafe : Safe (seen cfg s c) c.op) {e : Event}
    (hevs : eventsAt id (events cfg s c) = [e]) :
    ∃ o, Life.advance spent ((seen cfg s c).life id) e = some o ∧
      stateAfter cfg s c id = Life.stateOf o := by
  have hsteps := steps_exec hs hsafe
  obtain ⟨o, hfold, hshown⟩ := fold_of_exec hs hsafe id
  have hmem : (id, e) ∈ events cfg s c := mem_eventsAt.1 (by simp [hevs])
  have hadv : Life.advance spent ((seen cfg s c).life id) e = some o := by
    simpa [hevs] using hfold
  obtain ⟨l, rfl, hdone⟩ := Life.advance_done_iff hadv
  refine ⟨_, hadv, ?_⟩
  rcases he : (exec cfg s c).2.job id with - | e'
  · -- the hash is gone, so the job was acked
    have hphase : l.phase = .done := by
      rw [life_eq_none he] at hshown
      rcases hshown with h | ⟨-, _, ⟨⟩, h⟩
      · cases h
      · exact h
    have hend := hdone.1 hphase
    have hyes : acks cfg s c id = true := by
      cases e with
      | acked w => exact acks_iff.2 ⟨w, hmem⟩
      | purged => exact (mem_events_iff.1 hmem).elim
      | _ => cases hend
    rw [stateAfter, he, hyes, Life.stateOf, hphase]
    rfl
  · have hview : (exec cfg s c).2.life id = some l := by
      rcases hshown with h | ⟨h, -⟩
      · exact h
      · rw [life_eq_some he] at h
        cases h
    rw [← hview, stateOf_life hsteps.located, stateAfter, stateOf, he]
    rfl

/-- It follows an edge of the graph. -/
theorem canTransition_of_move (hs : Located s) (hsafe : Safe (seen cfg s c) c.op) {e : Event}
    (hevs : eventsAt id (events cfg s c) = [e]) (hmove : e.isRenewal = false) :
    canTransition (stateOf (seen cfg s c) id) (stateAfter cfg s c id) = true := by
  have hseen : Located (seen cfg s c) := (hs.live cfg.visible c.now).1
  have hmem : (id, e) ∈ events cfg s c := mem_eventsAt.1 (by simp [hevs])
  have hpurge : e ≠ .purged := by
    rintro rfl
    exact mem_events_iff.1 hmem
  obtain ⟨o, hadv, hstate⟩ := stateAfter_of_move hs hsafe hevs
  rw [hstate, ← stateOf_life hseen]
  exact Life.canTransition_of_advance hadv hmove hpurge

theorem reaped_nodup (s : Store) (now : ℤ) (q : String) (limit : ℤ) :
    (reaped s now q limit).Nodup := by
  rw [reaped]
  split_ifs
  · exact List.nodup_nil
  · exact List.nodup_nil
  · exact dueMembers_nodup _ _ _

/-- No job is promoted twice: it cannot be in both sets. -/
theorem promoted_nodup (hs : Located s) (now limit : ℤ) : (promoted s now limit).Nodup := by
  rw [promoted]
  split_ifs
  · exact List.nodup_nil
  · exact List.nodup_nil
  · refine List.Nodup.append (dueMembers_nodup _ _ _) (dueMembers_nodup _ _ _) fun id hd hr ↦ ?_
    obtain ⟨t, ht, -⟩ := mem_dueMembers hd
    obtain ⟨t', ht', -⟩ := mem_dueMembers hr
    have hhome := ((hs.counts id).2.2.1 .delayed).1 (by rw [Script.waitSet, ht]; rfl)
    rw [((hs.counts id).2.2.1 .retry).1 (by rw [Script.waitSet, ht']; rfl)] at hhome
    cases hhome

/-- **Every call amounts to what it reports**, if the IDs are proper ones: a `Dequeue` fails on a
hash without an ID after it has claimed it. -/
theorem amounts_events (hs : Located s) (hsafe : Safe (seen cfg s c) c.op) :
    ∃ n, Amounts (events cfg s c) n ∧
      ((∀ id e, (seen cfg s c).job id = some e → id ≠ "") → n = reported cfg s c) := by
  have hseen : Located (seen cfg s c) := (hs.live cfg.visible c.now).1
  obtain ⟨now, op⟩ := c
  cases op with
  | enqueue newID wall o =>
    refine ⟨_, ?_, fun _ ↦ rfl⟩
    rcases enqueue_cases (seen cfg s ⟨now, .enqueue newID wall o⟩) now newID wall o with
      ⟨err, heq⟩ | ⟨j, st, s₁, -, -, heq⟩
    · simpa [events, eventsOf, reported, exec, run, heq, Reply.of] using Amounts.nil
    · simpa [events, eventsOf, reported, exec, run, heq, Reply.of] using Amounts.single _ rfl
  | dequeue o =>
    rcases claimNext_cases hseen now o with ⟨err, heq⟩ | ⟨-, q, -, id, rest, e, -, he, heq⟩
    · refine ⟨_, ?_, fun _ ↦ rfl⟩
      simpa [events, eventsOf, reported, exec, run, dequeue, heq, Except.bind, Reply.of] using
        Amounts.nil
    · refine ⟨1, ?_, fun hid ↦ ?_⟩
      · simpa [events, eventsOf, heq] using Amounts.single _ rfl
      · have hne : (Script.claimed now o.workerID (milliseconds o.visibilityTimeout) e.hash).id ≠
            "" := by
          show e.hash.id ≠ ""
          rw [hseen.keyed id e he]
          exact hid id e he
        obtain ⟨j, hj, -⟩ := decodeJob_of_ne hne
        simp [reported, exec, run, dequeue, heq, Except.bind, hj, Reply.of]
  | ack w i =>
    have hp : Performs _ (ack _ now cfg.completedTTL w i) _ :=
      (performs_ack hseen now _ w i).fenceError i w
    refine ⟨_, ?_, fun _ ↦ rfl⟩
    rcases hp with ⟨err, heq⟩ | ⟨a, ha, -⟩
    · simpa [events, eventsOf, reported, exec, run, heq, Reply.of] using Amounts.nil
    · simpa [events, eventsOf, reported, exec, run, ha, Reply.of] using Amounts.single i rfl
  | nack w i r reason =>
    have hp : Performs _ (nack _ now w i r reason) _ :=
      (performs_nack hseen now w i _ reason).fenceError i w
    refine ⟨_, ?_, fun _ ↦ rfl⟩
    rcases hp with ⟨err, heq⟩ | ⟨a, ha, -⟩
    · simpa [events, eventsOf, reported, exec, run, heq, Reply.of] using Amounts.nil
    · simpa [events, eventsOf, reported, exec, run, ha, Reply.of] using Amounts.single i rfl
  | kill w i reason =>
    have hp : Performs _ (kill _ now w i reason) _ :=
      (performs_kill hseen now w i reason).fenceError i w
    refine ⟨_, ?_, fun _ ↦ rfl⟩
    rcases hp with ⟨err, heq⟩ | ⟨a, ha, -⟩
    · simpa [events, eventsOf, reported, exec, run, heq, Reply.of] using Amounts.nil
    · simpa [events, eventsOf, reported, exec, run, ha, Reply.of] using Amounts.single i rfl
  | extend w ids vt =>
    refine ⟨_, ?_, fun _ ↦ rfl⟩
    rcases performs_extend hseen now w ids vt with ⟨err, heq⟩ | ⟨a, ha, -⟩
    · simpa [events, eventsOf, reported, exec, run, heq, Reply.of] using Amounts.nil
    · simpa [events, eventsOf, reported, exec, run, ha, Reply.of] using Amounts.renewals _ rfl
  | reap q limit =>
    refine ⟨_, ?_, fun _ ↦ rfl⟩
    have hcount : reported cfg s ⟨now, .reap q limit⟩ =
        (reaped (seen cfg s ⟨now, .reap q limit⟩) now q limit).length := by
      rw [← (steps_reapQueue hseen now q limit).1]
      simp only [reported, exec, run, Prod.map_fst]
      rcases (reapQueue _ now q limit).1 with e | n <;> rfl
    rw [hcount]
    simpa [events, eventsOf] using Amounts.map (reaped_nodup _ now q limit) rfl
  | promote limit =>
    refine ⟨_, ?_, fun _ ↦ rfl⟩
    have hcount : reported cfg s ⟨now, .promote limit⟩ =
        (promoted (seen cfg s ⟨now, .promote limit⟩) now limit).length := by
      rw [← (steps_promote hseen now limit).1]
      simp only [reported, exec, run, Prod.map_fst]
      rcases (promote _ now limit).1 with e | n <;> rfl
    rw [hcount]
    simpa [events, eventsOf] using Amounts.map (promoted_nodup hseen now limit) rfl
  | _ =>
    refine ⟨_, ?_, fun _ ↦ rfl⟩
    simpa [events, eventsOf, reported] using Amounts.nil

theorem lawful_exec (hs : Located s) (hsafe : Safe (seen cfg s c) c.op)
    (hid : ∀ id e, (seen cfg s c).job id = some e → id ≠ "") :
    Lawful (stateOf (seen cfg s c)) (stateAfter cfg s c) (fun _ ↦ False) (reported cfg s c) := by
  obtain ⟨n, hamounts, hn⟩ := amounts_events hs hsafe
  rw [← hn hid]
  exact hamounts.lawful (fun _ ↦ stateAfter_of_renewals hs hsafe)
    fun _ _ hevs he ↦ .inl (canTransition_of_move hs hsafe hevs he)

end Redis

/-! ### The theorem -/

/-- **Every call follows the lifecycle graph.** In every reachable state of the in-memory broker and
for every call, the jobs whose state changes follow an edge of the graph, but for the dead jobs a
`PurgeDead` removes; they are as many as the call reports; and a job that was acked is not stored
again. The same holds for the Redis broker, from the store its script sees: of what is stored only
completed hashes may have expired before, and a job that was acked is completed as long as it has a
hash. -/
theorem lifecycle_followed (cfg : Redis.Config) :
    (∀ {h : List (Turn Memory.Broker Memory.Call)} {b : Memory.Broker} {c : Memory.Call},
      Memory.machine.Run Memory.Fresh h b → Memory.Fresh h b c →
      Lawful (Memory.stateOf b) (Memory.stateAfter b c) (Memory.Removes b c)
          (Memory.reported b c) ∧
        ∀ id, Memory.Acked h id → b.jobs.lookup id = none) ∧
    (∀ {h : List (Turn Redis.Store Redis.Call)} {s : Redis.Store} {c : Redis.Call},
      (Redis.machine cfg).Run (Redis.Issued cfg) h s → Redis.Issued cfg h s c →
      Lawful (Redis.stateOf (Redis.seen cfg s c)) (Redis.stateAfter cfg s c) (fun _ ↦ False)
          (Redis.reported cfg s c) ∧
        (∀ id e, s.job id = some e → (Redis.seen cfg s c).job id = some e ∨
          (Redis.seen cfg s c).job id = none ∧ e.hash.state = .completed) ∧
        ∀ id, Redis.Acked cfg h id → ∀ e, s.job id = some e → e.hash.state = .completed) := by
  constructor
  · intro h b c hrun hok
    refine ⟨Memory.lawful_exec (Memory.lives_of_fresh hrun).1 (hok.safe_of_run hrun),
      fun id hack ↦ ?_⟩
    by_contra hne
    exact ((Memory.stored_iff hrun id).1 (Option.isSome_iff_ne_none.2 hne)).2.1 hack
  · intro h s c hrun hok
    have hfresh := Redis.Issued.run hrun
    have hloc := (Redis.lives_of_fresh hfresh).1
    refine ⟨Redis.lawful_exec hloc (hok.fresh.safe_of_run hfresh) fun id e he ↦ ?_,
      fun id e he ↦ ?_, fun id hack e he ↦ ?_⟩
    · exact Redis.id_ne_empty hrun (Option.filter_eq_some_iff.1 he).1
    · rcases hseen : (Redis.seen cfg s c).job id with - | e'
      · refine .inr ⟨rfl, (hloc.expiring id e he).1 ?_⟩
        by_contra hnone
        rw [Redis.seen, Redis.Store.live] at hseen
        simp [he, Option.not_isSome_iff_eq_none.1 hnone] at hseen
      · have heq := (Option.filter_eq_some_iff.1 hseen).1
        rw [he] at heq
        exact .inl heq.symm
    · have hnone : s.home id = none := Option.not_isSome_iff_eq_none.1
        fun hsome ↦ ((Redis.placed_iff hfresh id).1 hsome).2 hack
      rw [Redis.Store.home, he, Option.bind_some] at hnone
      have hknown := hloc.known id e he
      cases hstate : e.hash.state <;> simp_all [Redis.placeOf]

/-- A pending job is claimed in either broker: one job changes its state, from pending to active. -/
theorem lifecycle_followed_claimed :
    (∃ h b c, Memory.machine.Run Memory.Fresh h b ∧ Memory.Fresh h b c ∧
      Lawful (Memory.stateOf b) (Memory.stateAfter b c) (Memory.Removes b c) 1 ∧
      Memory.stateOf b "a" = .pending ∧ Memory.stateAfter b c "a" = .active) ∧
    ∃ h s c, (Redis.machine .default).Run (Redis.Issued .default) h s ∧
      Redis.Issued .default h s c ∧
      Lawful (Redis.stateOf (Redis.seen .default s c)) (Redis.stateAfter .default s c)
        (fun _ ↦ False) 1 ∧
      Redis.stateOf (Redis.seen .default s c) "a" = .pending ∧
      Redis.stateAfter .default s c "a" = .active := by
  constructor
  · have hrun : Memory.machine.Run Memory.Fresh _ _ :=
      .step ⟨0, .enqueue "a" (some (.plain "q" "t" 1))⟩ .start ⟨by simp, by simp⟩
    have hok : ∀ h b, Memory.Fresh h b ⟨1, .dequeue ⟨"w", ["q"], 10⟩⟩ :=
      fun _ _ ↦ ⟨by simp, by simp⟩
    exact ⟨_, _, _, hrun, hok _ _, ((lifecycle_followed .default).1 hrun (hok _ _)).1, rfl, rfl⟩
  · have hrun : (Redis.machine .default).Run (Redis.Issued .default) _ _ :=
      .step ⟨0, .enqueue "a" 0 (some (.plain "q" "t" 1))⟩ .start ⟨by simp [Redis.Fresh], by simp⟩
    have hok : ∀ h s, Redis.Issued .default h s ⟨1, .dequeue ⟨"w", ["q"], millisecond⟩⟩ :=
      fun _ _ ↦ ⟨by simp [Redis.Fresh], by simp⟩
    exact ⟨_, _, _, hrun, hok _ _, ((lifecycle_followed .default).2 hrun (hok _ _)).1, rfl, rfl⟩

end TaskQueue
