import TaskQueue.Data.Arrivals
import TaskQueue.Memory.Waiting

/-!
# First delivery is first in, first out

A ready list of the in-memory broker is edited at both ends: `Dequeue` takes the head, `Reap` puts
recovered jobs back at the head, and `Enqueue`, `Promote` and `RetryDead` append to the tail. So
nothing can be said about the order of jobs in general. Jobs that were **never claimed** keep the
order in which they first entered the list: whoever is put back has been claimed before, and an
append puts newcomers behind everybody else. That is the order of first arrival of
`TaskQueue.Data.Arrivals`, with the jobs that were not claimed yet as the new ones.

What the module has to supply is where the edited jobs come from. `edits_exec` says it for one call,
by the state the job was in; what the state says about the job's history is read off its life.
-/

namespace TaskQueue

open Keyed

/-- A job that is leased, waits for a retry or is dead has been claimed. -/
theorem Life.claimed_of_state {spent : ℤ → ℤ → Bool} {evs : List Event} {o : Option Life}
    (hrun : evs.foldlM (advance spent) none = some o)
    (hstate : stateOf o = .active ∨ stateOf o = .retry ∨ stateOf o = .dead) :
    ∃ e ∈ evs, e.isClaim = true := by
  revert hstate
  refine foldlM_invariant (P := fun past o ↦ stateOf o = .active ∨ stateOf o = .retry ∨
    stateOf o = .dead → ∃ e ∈ past, e.isClaim = true) (fun h ↦ ?_) ?_ hrun
  · rcases h with h | h | h <;> cases h
  · intro past y e y' _ hP hadv hstate
    have hstates := states_of_advance hadv
    have hold : stateOf y = .active → ∃ e' ∈ past ++ [e], e'.isClaim = true := by
      intro hy
      obtain ⟨e', he', hclaim⟩ := hP (.inl hy)
      exact ⟨e', List.mem_append_left _ he', hclaim⟩
    cases e with
    | claimed w d => exact ⟨.claimed w d, by simp, rfl⟩
    | nacked w r | killed w | extended w d | reaped now => exact hold hstates.1
    | enqueued l =>
      rcases hstates.2 with h | h <;> rw [h] at hstate <;> rcases hstate with h | h | h <;> cases h
    | acked w | promoted now | replayed | purged =>
      rw [hstates.2] at hstate
      rcases hstate with h | h | h <;> cases h

/-- A job that waits for its `RunAt` has only been enqueued. -/
theorem Life.enqueued_of_scheduled {spent : ℤ → ℤ → Bool} {evs : List Event} {o : Option Life}
    (hrun : evs.foldlM (advance spent) none = some o) (hstate : stateOf o = .scheduled) :
    ∃ l, evs = [.enqueued l] := by
  refine (foldlM_invariant (P := fun past o ↦ (o = none → past = []) ∧
    (stateOf o = .scheduled → ∃ l, past = [.enqueued l])) ?_ ?_ hrun).2 hstate
  · exact ⟨fun _ ↦ rfl, by simp [stateOf]⟩
  · intro past y e y' _ hP hadv
    obtain ⟨l', rfl, -⟩ := advance_done_iff hadv
    refine ⟨by simp, fun hstate ↦ ?_⟩
    have hstates := states_of_advance hadv
    cases e with
    | enqueued l =>
      obtain ⟨rfl, -, -⟩ := advance_enqueued_iff.1 hadv
      exact ⟨l, by rw [hP.1 rfl]; rfl⟩
    | nacked w r | reaped now => rcases hstates.2 with h | h <;> rw [h] at hstate <;> cases hstate
    | _ =>
      rw [hstates.2] at hstate
      cases hstate

namespace Memory

open Broker Arrivals

/-- Whether no `Dequeue` has returned the job. -/
def unclaimed (h : List (Turn Broker Call)) (id : String) : Bool :=
  h.all fun t ↦ claimOf t ≠ some id

/-- The jobs that were ever in the ready list of queue `q`, in the order in which they entered it
first. A call that lets several enter appends them, so they entered in the order of the list. -/
def arrivals (q : String) : List (Turn Broker Call) → List String
  | [] => []
  | t :: h => extend (arrivals q h) ((machine.after t).pending q)

variable {b : Broker} {c : Call} {t : Turn Broker Call} {h newer older : List (Turn Broker Call)}
  {id q : String}

/-! ### Where a job is -/

/-- The state of the jobs in this container. -/
def Place.state : Place → State
  | .pending _ => .pending
  | .active => .active
  | .scheduled => .scheduled
  | .retry => .retry
  | .dead => .dead

theorem stateOf_of_home {p : Place} (hhome : b.home id = some p) : stateOf b id = p.state := by
  obtain ⟨j, hj, hplace⟩ := Option.bind_eq_some_iff.1 hhome
  rw [stateOf, hj, Option.elim_some]
  cases p with
  | pending q => exact (place_eq_some_iff.1 hplace).1
  | _ => exact place_eq_some_iff.1 hplace

/-- A job in a ready list is a pending job of that queue. -/
theorem home_of_pending (hloc : Located b) (hid : id ∈ b.pending q) :
    b.home id = some (.pending q) := by
  by_contra hne
  have hcount := (hloc.counts id).1 q
  rw [if_neg hne] at hcount
  exact List.count_eq_zero.1 hcount hid

/-- A stored job is in the state of its life. -/
theorem stateOf_of_lives (hloc : Located b) {o : Option Life} (hshown : Life.Shown o (b.life id))
    (hstored : stateOf b id ≠ .none) : Life.stateOf o = stateOf b id := by
  rw [← stateOf_life hloc] at hstored ⊢
  rcases hshown with heq | ⟨hnone, -⟩
  · rw [heq]
  · rw [hnone] at hstored
    exact absurd rfl hstored

theorem pending_nodup (hloc : Located b) (q : String) : (b.pending q).Nodup := by
  refine List.nodup_iff_count_le_one.2 fun id ↦ ?_
  rw [(hloc.counts id).1 q]
  split_ifs <;> simp

/-! ### The edits of a ready list -/

namespace Broker

/-- The operations that edit ready lists. -/
def editsReady : Op → Bool
  | .enqueue .. | .dequeue .. | .reap .. | .promote .. | .retryDead .. => true
  | _ => false

theorem pending_update {now : Time} {op : Op} {b' : Broker} (h : Update now b op b')
    (hop : editsReady op = false) : b'.pending = b.pending := by
  cases h with
  | store | pop | claim | recover | leave | promote | replay => cases hop
  | _ => rfl

/-- **The other operations leave the ready lists alone.** -/
theorem pending_exec (hop : editsReady c.op = false) : (exec b c).2.pending = b.pending :=
  rel_exec (R := fun b b' ↦ b'.pending = b.pending) (fun _ ↦ rfl) (fun h h' ↦ h'.trans h)
    (fun _ _ h ↦ pending_update h hop) b

/-- A list that gets one more member at the front, if the job is of this queue. -/
theorem exists_front (f : String → List String) (q q' id : String) (front : List String) :
    ∃ front', front ++ Function.update f q' (id :: f q') q =
      front' ++ f q ∧ ∀ x ∈ front', x ∈ front ∨ x = id := by
  by_cases hq : q = q'
  · subst hq
    exact ⟨front ++ [id], by simp, by simp⟩
  · exact ⟨front, by rw [Function.update_of_ne hq], fun x hx ↦ .inl hx⟩

/-- A list that gets one more member at the back, if the job is of this queue. -/
theorem exists_back (f : String → List String) (q q' id : String) (back : List String) :
    ∃ back', Function.update f q' (f q' ++ [id]) q ++ back =
      f q ++ back' ∧ ∀ x ∈ back', x = id ∨ x ∈ back := by
  by_cases hq : q = q'
  · subst hq
    exact ⟨id :: back, by simp, by simp⟩
  · exact ⟨back, by rw [Function.update_of_ne hq], fun x hx ↦ .inr hx⟩

theorem pending_reapLoop (limit : ℤ) (cs : List (Time ×ₗ String)) :
    ∀ (k : ℕ) (b : Broker), ∃ front, (reapLoop limit cs k b).2.pending q = front ++ b.pending q ∧
      ∀ x ∈ front, x ∈ Table.keysOf cs := by
  induction cs with
  | nil => exact fun _ b ↦ ⟨[], rfl, by simp⟩
  | cons c cs ih =>
    intro k b
    rw [reapLoop]
    split_ifs
    · exact ⟨[], rfl, by simp⟩
    · rcases b.jobs.lookup (ofLex c).2 with - | j
      · obtain ⟨front, heq, hmem⟩ := ih k b
        exact ⟨front, heq, fun x hx ↦ List.mem_cons_of_mem _ (hmem x hx)⟩
      · obtain ⟨front, heq, hmem⟩ := ih (k + 1) (b.recover (ofLex c).2 j)
        obtain ⟨front', heq', hmem'⟩ : ∃ front', front ++ (b.recover (ofLex c).2 j).pending q =
            front' ++ b.pending q ∧ ∀ x ∈ front', x ∈ front ∨ x = (ofLex c).2 := by
          rw [recover]
          split_ifs
          · exact ⟨front, rfl, fun x hx ↦ .inl hx⟩
          · exact exists_front b.pending q j.queue (ofLex c).2 front
        refine ⟨front', heq.trans heq', fun x hx ↦ ?_⟩
        rcases hmem' x hx with hx | rfl
        · exact List.mem_cons_of_mem _ (hmem x hx)
        · exact List.mem_cons_self

theorem pending_promoteLoop (limit : ℤ) (cs : List ((Time ×ₗ String) × WaitSet)) :
    ∀ (k : ℕ) (b : Broker), ∃ back, (promoteLoop limit cs k b).2.pending q = b.pending q ++ back ∧
      ∀ x ∈ back, x ∈ cs.map fun c ↦ (ofLex c.1).2 := by
  induction cs with
  | nil => exact fun _ b ↦ ⟨[], by simp [promoteLoop], by simp⟩
  | cons c cs ih =>
    intro k b
    rw [promoteLoop]
    split_ifs
    · exact ⟨[], by simp, by simp⟩
    · rcases b.jobs.lookup (ofLex c.1).2 with - | j
      · obtain ⟨back, heq, hmem⟩ := ih k (b.leaveSet c.2 (ofLex c.1).2)
        refine ⟨back, heq.trans ?_, fun x hx ↦ List.mem_cons_of_mem _ (hmem x hx)⟩
        rcases c.2 with - | - <;> rfl
      · obtain ⟨back, heq, hmem⟩ := ih (k + 1) (b.promoteJob c.2 (ofLex c.1).2 j)
        obtain ⟨back', heq', hmem'⟩ := exists_back b.pending q j.queue (ofLex c.1).2 back
        refine ⟨back', heq.trans (promoteJob_pending c.2 ▸ heq'), fun x hx ↦ ?_⟩
        rcases hmem' x hx with rfl | hx
        · exact List.mem_cons_self
        · exact List.mem_cons_of_mem _ (hmem x hx)

theorem pending_retryLoop (ids : List String) :
    ∀ (k : ℕ) (b : Broker), ∃ back, (retryLoop ids k b).2.pending q = b.pending q ++ back ∧
      ∀ x ∈ back, x ∈ ids := by
  induction ids with
  | nil => exact fun _ b ↦ ⟨[], by simp [retryLoop], by simp⟩
  | cons id ids ih =>
    intro k b
    rw [retryLoop]
    rcases b.jobs.lookup id with - | j
    · obtain ⟨back, heq, hmem⟩ := ih k b
      exact ⟨back, heq, fun x hx ↦ List.mem_cons_of_mem _ (hmem x hx)⟩
    · obtain ⟨back, heq, hmem⟩ := ih (k + 1) (b.replay id j)
      obtain ⟨back', heq', hmem'⟩ := exists_back b.pending q j.queue id back
      refine ⟨back', heq.trans heq', fun x hx ↦ ?_⟩
      rcases hmem' x hx with rfl | hx
      · exact List.mem_cons_self
      · exact List.mem_cons_of_mem _ (hmem x hx)

end Broker

/-- How a job gets to the tail of a ready list. -/
def Joins (b : Broker) (c : Call) (id : String) : Prop :=
  (∃ newID j, c.op = .enqueue newID (some j) ∧ (j.assigned newID).id = id) ∨
    (∃ limit, c.op = .promote limit) ∧ (stateOf b id = .scheduled ∨ stateOf b id = .retry) ∨
    stateOf b id = .dead

/-- A call edits a ready list: members that were leased come back at the front, members that were
in no ready list join at the back, and in between is the list as it was, without the head if it was
claimed. -/
def Edits (b : Broker) (c : Call) (q : String) : Prop :=
  ∃ front mid back, (exec b c).2.pending q = front ++ mid ++ back ∧
    (mid = b.pending q ∨ ∃ j, (exec b c).1 = .claimed j ∧ b.pending q = j.id :: mid) ∧
    (∀ x ∈ front, stateOf b x = .active) ∧ ∀ x ∈ back, Joins b c x

namespace Edits

theorem of_eq (heq : (exec b c).2.pending = b.pending) : Edits b c q :=
  ⟨[], b.pending q, [], by simp [heq], .inl rfl, by simp, by simp⟩

theorem of_back (back : List String) (heq : (exec b c).2.pending q = b.pending q ++ back)
    (hjoin : ∀ x ∈ back, Joins b c x) : Edits b c q :=
  ⟨[], b.pending q, back, heq, .inl rfl, by simp, hjoin⟩

theorem of_front (front : List String) (heq : (exec b c).2.pending q = front ++ b.pending q)
    (hactive : ∀ x ∈ front, stateOf b x = .active) : Edits b c q :=
  ⟨front, b.pending q, [], by simpa using heq, .inl rfl, hactive, by simp⟩

end Edits

theorem edits_enqueue {now : Time} (newID : String) (o : Option Job) (q : String) :
    Edits b ⟨now, .enqueue newID o⟩ q := by
  rcases enqueue_cases b now newID o with ⟨e, heq⟩ | ⟨j, rfl, heq⟩
  · exact .of_eq (by simp [exec, heq])
  · have hexec : (exec b ⟨now, .enqueue newID (some j)⟩).2 = b.store now (stamped now newID j) := by
      simp [exec, heq]
    by_cases hdue : now < (stamped now newID j).runAt
    · exact .of_eq (by rw [hexec, store, if_pos hdue])
    · obtain ⟨back, hback, hmem⟩ :=
        exists_back b.pending q (stamped now newID j).queue (stamped now newID j).id []
      rw [List.append_nil] at hback
      refine .of_back back ?_ fun x hx ↦ ?_
      · rw [hexec, store, if_neg hdue]
        exact hback
      · obtain rfl : x = (stamped now newID j).id := by simpa using hmem x hx
        exact .inl ⟨newID, j, rfl, rfl⟩

theorem edits_dequeue (hloc : Located b) {now : Time} (o : ClaimOpts) (q : String) :
    Edits b ⟨now, .dequeue o⟩ q := by
  rcases performs_dequeue hloc now o with ⟨e, he⟩ | ⟨j, hj, -⟩
  · exact .of_eq (by simp [exec, he])
  · have hreply : (exec b ⟨now, .dequeue o⟩).1 = .claimed j := by simp [exec, hj, Reply.of]
    obtain ⟨o', q', rest, j₀, -, hq', -, -, hexec⟩ := claimed_of_exec hloc hreply
    by_cases hq : q = q'
    · subst hq
      refine ⟨[], rest, [], ?_, .inr ⟨j, hreply, hq'⟩, by simp, by simp⟩
      rw [hexec]
      show Function.update b.pending q (b.pending q).tail q = _
      rw [Function.update_self, hq']
      simp
    · refine ⟨[], b.pending q, [], ?_, .inl rfl, by simp, by simp⟩
      rw [hexec]
      show Function.update b.pending q' (b.pending q').tail q = _
      rw [Function.update_of_ne hq]
      simp

theorem edits_reap (hloc : Located b) {now : Time} (queues : List String) (limit : ℤ) (q : String) :
    Edits b ⟨now, .reap queues limit⟩ q := by
  have hexec : (exec b ⟨now, .reap queues limit⟩).2 = (b.reap now queues limit).2 := rfl
  rw [reap] at hexec
  split_ifs at hexec
  · exact .of_eq (by rw [hexec])
  · exact .of_eq (by rw [hexec])
  · obtain ⟨front, heq, hmem⟩ := pending_reapLoop (q := q) limit (b.expired now queues) 0 b
    refine .of_front front (by rw [hexec]; exact heq) fun x hx ↦ ?_
    obtain ⟨d, hd, -⟩ := Table.mem_keysOf_due.1 (hmem x hx)
    exact stateOf_of_home ((hloc.counts x).2.1.1 (by rw [hd]; rfl))

theorem edits_promote (hloc : Located b) {now : Time} (limit : ℤ) (q : String) :
    Edits b ⟨now, .promote limit⟩ q := by
  have hexec : (exec b ⟨now, .promote limit⟩).2 = (b.promote now limit).2 := rfl
  rw [promote] at hexec
  split_ifs at hexec
  · exact .of_eq (by rw [hexec])
  · exact .of_eq (by rw [hexec])
  · obtain ⟨back, heq, hmem⟩ := pending_promoteLoop (q := q) limit (b.dueJobs now) 0 b
    refine .of_back back (by rw [hexec]; exact heq) fun x hx ↦ ?_
    refine .inr (.inl ⟨⟨limit, rfl⟩, ?_⟩)
    obtain ⟨c, hc, rfl⟩ := List.mem_map.1 (hmem x hx)
    have hin := (mem_dueJobs.1 hc).1
    rcases hset : c.2 with - | - <;> rw [hset] at hin
    · exact .inl (stateOf_of_home ((hloc.counts _).2.2.1.1 (Option.isSome_of_eq_some hin)))
    · exact .inr (stateOf_of_home ((hloc.counts _).2.2.2.1.1 (Option.isSome_of_eq_some hin)))

theorem edits_retryDead (hloc : Located b) {now : Time} (ids : List String) (q : String) :
    Edits b ⟨now, .retryDead ids⟩ q := by
  have hexec : (exec b ⟨now, .retryDead ids⟩).2 = (b.retryDead ids).2 := rfl
  rw [retryDead] at hexec
  split_ifs at hexec
  · exact .of_eq (by rw [hexec])
  · obtain ⟨back, heq, hmem⟩ := pending_retryLoop (q := q) (b.selectDeadLocked ids) 0 b
    refine .of_back back (by rw [hexec]; exact heq) fun x hx ↦ .inr (.inr ?_)
    obtain ⟨j, hj⟩ := hloc.of_mem_dead (mem_selectDeadLocked.1 (hmem x hx)).1
    rw [stateOf, hj]
    exact (hloc.of_dead hj (mem_selectDeadLocked.1 (hmem x hx)).1).1

/-- **Every call edits the ready lists so.** -/
theorem edits_exec (hloc : Located b) (q : String) : Edits b c q := by
  obtain ⟨now, op⟩ := c
  cases op with
  | enqueue newID o => exact edits_enqueue newID o q
  | dequeue o => exact edits_dequeue hloc o q
  | reap queues limit => exact edits_reap hloc queues limit q
  | promote limit => exact edits_promote hloc limit q
  | retryDead ids => exact edits_retryDead hloc ids q
  | _ => exact .of_eq (pending_exec rfl)

/-! ### Arrivals -/

theorem mem_arrivals : id ∈ arrivals q h ↔ ∃ t ∈ h, id ∈ (machine.after t).pending q := by
  induction h with
  | nil => simp [arrivals]
  | cons t h ih => rw [arrivals, mem_extend, ih, List.exists_mem_cons_iff, or_comm]

theorem arrivals_append (q : String) (newer older : List (Turn Broker Call)) :
    ∃ later, arrivals q (newer ++ older) = arrivals q older ++ later := by
  induction newer with
  | nil => exact ⟨[], by simp⟩
  | cons t newer ih =>
    obtain ⟨later, heq⟩ := ih
    refine ⟨later ++
      ((machine.after t).pending q).filter fun x ↦ x ∉ arrivals q (newer ++ older), ?_⟩
    rw [List.cons_append, arrivals, Arrivals.extend, ← List.append_assoc, ← heq]

theorem arrivals_nodup (hrun : machine.Run Fresh h b) (q : String) : (arrivals q h).Nodup := by
  refine hrun.invariant (P := fun h _ ↦ (arrivals q h).Nodup) List.nodup_nil ?_
  intro h b c hrun hP hok
  have hsteps := steps_exec (lives_of_fresh hrun).1 (hok.safe_of_run hrun)
  exact nodup_extend hP (pending_nodup hsteps.located q)

/-- Who is in a ready list has arrived there. -/
theorem mem_arrivals_of_pending (hrun : machine.Run Fresh h b) (hid : id ∈ b.pending q) :
    id ∈ arrivals q h := by
  cases hrun with
  | start => cases hid
  | step c _ _ => exact mem_extend.2 (.inr hid)

/-- Who arrived was enqueued, for that queue. -/
theorem enqueued_of_arrival (hrun : machine.Run Fresh h b) (hid : id ∈ arrivals q h) :
    ∃ l, (id, .enqueued l) ∈ history events h ∧ l.queue = q := by
  obtain ⟨t, ht, hin⟩ := mem_arrivals.1 hid
  obtain ⟨newer, older, rfl⟩ := List.append_of_mem ht
  have hupto := hrun.upto
  obtain ⟨j', hj', hplace⟩ :=
    Option.bind_eq_some_iff.1 (home_of_pending (lives_of_fresh hupto).1 hin)
  obtain ⟨u, hu, newID, o, j, hop, hreply, hjid, hsame⟩ := stored_of_run hupto id j' hj'
  refine ⟨newLife u.input.now j, mem_history.2 ⟨u, List.mem_append_right _ hu, ?_⟩, ?_⟩
  · exact mem_events_iff.2 ⟨newID, o, j, hop, hreply, hjid, rfl⟩
  · show j.queue = q
    rw [← (place_eq_some_iff.1 hplace).2, hsame.queue_eq]

/-- A job arrives in one queue only. -/
theorem queue_of_arrival (hrun : machine.Run Fresh h b) {q' : String} (hid : id ∈ arrivals q h)
    (hid' : id ∈ arrivals q' h) : q = q' := by
  obtain ⟨l, hl, rfl⟩ := enqueued_of_arrival hrun hid
  obtain ⟨l', hl', rfl⟩ := enqueued_of_arrival hrun hid'
  obtain ⟨-, a, hfollows, -⟩ := lives_of_fresh hrun
  obtain ⟨rest, hevs, -⟩ := Life.first_of_enqueued (hfollows id) (mem_eventsAt.2 hl)
  obtain ⟨rest', hevs', -⟩ := Life.first_of_enqueued (hfollows id) (mem_eventsAt.2 hl')
  rw [hevs] at hevs'
  rw [Event.enqueued.inj (List.cons.inj hevs').1]

/-! ### Claims -/

/-- A job that is claimed was at the head of a ready list. -/
theorem head_of_claim (hloc : Located t.before) (hclaim : claimOf t = some id) :
    ∃ q rest, t.before.pending q = id :: rest := by
  obtain ⟨j, hreply, rfl⟩ := claimOf_eq_some.1 hclaim
  obtain ⟨o, q, rest, j₀, -, hq, -⟩ := claimed_of_exec hloc hreply
  exact ⟨q, rest, hq⟩

theorem unclaimed_eq_false : unclaimed h id = false ↔ ∃ t ∈ h, claimOf t = some id := by
  rw [unclaimed, List.all_eq_false]
  simp

/-- A job that is leased, waits for a retry or is dead has been claimed. -/
theorem claimed_of_stateOf (hrun : machine.Run Fresh h b)
    (hstate : stateOf b id = .active ∨ stateOf b id = .retry ∨ stateOf b id = .dead) :
    unclaimed h id = false := by
  obtain ⟨hloc, a, hfollows, hshown⟩ := lives_of_fresh hrun
  have hstored : stateOf b id ≠ .none := by
    rcases hstate with h | h | h <;> rw [h] <;> decide
  rw [← stateOf_of_lives hloc (hshown id) hstored] at hstate
  obtain ⟨e, he, hkind⟩ := Life.claimed_of_state (hfollows id) hstate
  obtain ⟨t, ht, hmem⟩ := mem_history.1 (mem_eventsAt.1 he)
  have hdid := mem_events_iff.1 hmem
  cases e with
  | claimed w d =>
    obtain ⟨o, j, -, hreply, hid, -⟩ := hdid
    exact unclaimed_eq_false.2 ⟨t, ht, claimOf_eq_some.2 ⟨j, hreply, hid⟩⟩
  | _ => cases hkind

/-- A job that was claimed has arrived. -/
theorem arrival_of_claimed (hrun : machine.Run Fresh h b) (hclaimed : unclaimed h id = false) :
    ∃ q, id ∈ arrivals q h := by
  obtain ⟨t, ht, hclaim⟩ := unclaimed_eq_false.1 hclaimed
  obtain ⟨newer, older, rfl⟩ := List.append_of_mem ht
  have hbefore := hrun.of_append.1
  obtain ⟨q, rest, hq⟩ := head_of_claim (lives_of_fresh hbefore).1 hclaim
  have hin : id ∈ arrivals q older := mem_arrivals_of_pending hbefore (by simp [hq])
  obtain ⟨u, hu, hmem⟩ := mem_arrivals.1 hin
  exact ⟨q, mem_arrivals.2 ⟨u, List.mem_append_right _ (List.mem_cons_of_mem _ hu), hmem⟩⟩

/-- A job that has arrived does not wait for its `RunAt` any more. -/
theorem not_scheduled_of_arrival (hrun : machine.Run Fresh h b) (hid : id ∈ arrivals q h) :
    stateOf b id ≠ .scheduled := by
  intro hstate
  obtain ⟨hloc, a, hfollows, hshown⟩ := lives_of_fresh hrun
  obtain ⟨t, ht, hin⟩ := mem_arrivals.1 hid
  obtain ⟨newer, older, rfl⟩ := List.append_of_mem ht
  obtain ⟨hloc₁, a₁, hfollows₁, hshown₁⟩ := lives_of_fresh hrun.upto
  have hnow : Life.stateOf (a id) = .scheduled :=
    (stateOf_of_lives hloc (hshown id) (by rw [hstate]; decide)).trans hstate
  have hpending : stateOf (machine.after t) id = .pending :=
    stateOf_of_home (home_of_pending hloc₁ hin)
  have hthen : Life.stateOf (a₁ id) = .pending :=
    (stateOf_of_lives hloc₁ (hshown₁ id) (by rw [hpending]; decide)).trans hpending
  -- its enqueue is all that ever happened to the job, so nothing did since it was in the list
  obtain ⟨l, hevs⟩ := Life.enqueued_of_scheduled (hfollows id) hnow
  have hfold := hfollows id
  rw [history_append, eventsAt_append] at hevs hfold
  rcases hfirst : eventsAt id (history events (t :: older)) with - | ⟨e, evs⟩
  · have hnone := hfollows₁ id
    rw [hfirst] at hnone
    rw [← Option.some.inj hnone] at hthen
    cases hthen
  · rw [hfirst, List.cons_append] at hevs
    have hrest := (List.append_eq_nil_iff.1 (List.cons.inj hevs).2).2
    rw [hrest, List.append_nil, hfollows₁ id] at hfold
    rw [Option.some.inj hfold, hnow] at hthen
    cases hthen

/-! ### The theorem -/

/-- **The jobs that were not claimed yet are in line in the order in which they arrived.** -/
theorem order_of_run (hrun : machine.Run Fresh h b) (q : String) :
    (b.pending q).filter (unclaimed h) = (arrivals q h).filter (unclaimed h) := by
  refine hrun.invariant (P := fun h b ↦
    (b.pending q).filter (unclaimed h) = (arrivals q h).filter (unclaimed h)) rfl ?_
  intro h b c hrun hP hok
  obtain ⟨front, mid, back, hafter, hmid, hfront, hback⟩ :=
    edits_exec (c := c) (lives_of_fresh hrun).1 q
  have hafter : (machine.after ⟨b, c⟩).pending q = front ++ mid ++ back := hafter
  have hcons : ∀ x, unclaimed (⟨b, c⟩ :: h) x =
      (decide (claimOf ⟨b, c⟩ ≠ some x) && unclaimed h x) := fun x ↦ List.all_cons
  have hold : ∀ x, unclaimed h x = false → unclaimed (⟨b, c⟩ :: h) x = false := by
    intro x hx
    rw [hcons, hx, Bool.and_false]
  have horder : (b.pending q).filter (unclaimed (⟨b, c⟩ :: h)) =
      (arrivals q h).filter (unclaimed (⟨b, c⟩ :: h)) := by
    have hsplit : unclaimed (⟨b, c⟩ :: h) =
        fun x ↦ decide (claimOf ⟨b, c⟩ ≠ some x) && unclaimed h x := funext hcons
    rw [hsplit, ← List.filter_filter, ← List.filter_filter, hP]
  show ((machine.after ⟨b, c⟩).pending q).filter _ = _
  rw [arrivals, hafter]
  refine filter_extend horder ?_ (fun x hx ↦ ?_) fun x hx hnew harrived ↦ ?_
  · rcases hmid with rfl | ⟨j, hreply, hpending⟩
    · rfl
    · have hclaim : claimOf ⟨b, c⟩ = some j.id := claimOf_eq_some.2 ⟨j, hreply, rfl⟩
      rw [hpending, List.filter_cons_of_neg (by simp [hcons, hclaim])]
  · exact hold x (claimed_of_stateOf hrun (.inl (hfront x hx)))
  · rcases hback x hx with ⟨newID, j, hop, rfl⟩ | ⟨-, hsched | hretry⟩ | hdead
    · obtain ⟨l, hl, -⟩ := enqueued_of_arrival hrun harrived
      exact hok.not_enqueued hop l hl
    · exact not_scheduled_of_arrival hrun harrived hsched
    · rw [hold x (claimed_of_stateOf hrun (.inr (.inl hretry)))] at hnew
      cases hnew
    · rw [hold x (claimed_of_stateOf hrun (.inr (.inr hdead)))] at hnew
      cases hnew

/-- A job arrives by an `Enqueue` or a `Promote`. -/
theorem op_of_arrival (hrun : machine.Run Fresh (t :: h) b)
    (hin : id ∈ (machine.after t).pending q) (hnew : id ∉ arrivals q h) :
    (∃ newID o, t.input.op = .enqueue newID o) ∨ ∃ limit, t.input.op = .promote limit := by
  obtain ⟨hprev, hok, -⟩ := hrun.of_cons
  -- whoever was claimed before has arrived before, in its only queue
  have hclaimed : unclaimed h id ≠ false := by
    intro hclaimed
    obtain ⟨q', hq'⟩ := arrival_of_claimed hprev hclaimed
    have hboth : id ∈ arrivals q (t :: h) ∧ id ∈ arrivals q' (t :: h) :=
      ⟨mem_extend.2 (.inr hin), mem_extend.2 (.inl hq')⟩
    rw [queue_of_arrival hrun hboth.1 hboth.2] at hnew
    exact hnew hq'
  obtain ⟨front, mid, back, hafter, hmid, hfront, hback⟩ :=
    edits_exec (c := t.input) (lives_of_fresh hprev).1 q
  have hsub : ∀ x ∈ mid, x ∈ t.before.pending q := by
    intro x hx
    rcases hmid with rfl | ⟨j, -, hpending⟩
    · exact hx
    · exact hpending ▸ List.mem_cons_of_mem _ hx
  rw [show (machine.after t).pending q = front ++ mid ++ back from hafter] at hin
  rcases List.mem_append.1 hin with hin | hin
  · rcases List.mem_append.1 hin with hin | hin
    · exact absurd (claimed_of_stateOf hprev (.inl (hfront id hin))) hclaimed
    · exact absurd (mem_arrivals_of_pending hprev (hsub id hin)) hnew
  · rcases hback id hin with ⟨newID, j, hop, -⟩ | ⟨hop, -⟩ | hdead
    · exact .inl ⟨newID, some j, hop⟩
    · exact .inr hop
    · exact absurd (claimed_of_stateOf hprev (.inr (.inr hdead))) hclaimed

/-- The first claim of a job. -/
theorem exists_first_claim (hclaim : ∃ t ∈ h, claimOf t = some id) :
    ∃ newer t older, h = newer ++ t :: older ∧ claimOf t = some id ∧
      unclaimed older id = true := by
  induction h with
  | nil =>
    obtain ⟨t, ht, -⟩ := hclaim
    cases ht
  | cons t h ih =>
    rcases hfirst : unclaimed h id with - | -
    · obtain ⟨newer, u, older, rfl, hu, hnone⟩ := ih (unclaimed_eq_false.1 hfirst)
      exact ⟨t :: newer, u, older, rfl, hu, hnone⟩
    · refine ⟨[], t, h, rfl, ?_, hfirst⟩
      obtain ⟨u, hu, hclaim⟩ := hclaim
      rcases List.mem_cons.1 hu with rfl | hu
      · exact hclaim
      · rw [unclaimed_eq_false.2 ⟨u, hu, hclaim⟩] at hfirst
        cases hfirst

/-- **First delivery is first in, first out.** Jobs enter a ready list for the first time by an
`Enqueue` or a `Promote`; and if `x` did before `y`, then a `Dequeue` returns `y` only after an
earlier one has returned `x`. -/
theorem first_delivery_fifo (hrun : machine.Run Fresh h b) (q : String) :
    (∀ newer t older id, h = newer ++ t :: older → id ∈ (machine.after t).pending q →
      id ∉ arrivals q older →
      (∃ newID o, t.input.op = .enqueue newID o) ∨ ∃ limit, t.input.op = .promote limit) ∧
    ∀ x y, [x, y].Sublist (arrivals q h) → ∀ newer t older, h = newer ++ t :: older →
      claimOf t = some y → ∃ u ∈ older, claimOf u = some x := by
  refine ⟨fun newer t older id hsplit hin hnew ↦ ?_,
    fun x y hahead newer t older hsplit hclaim ↦ ?_⟩
  · subst hsplit
    exact op_of_arrival hrun.upto hin hnew
  · -- it is enough to look at the first claim of `y`
    have hsome : ∃ u ∈ t :: older, claimOf u = some y := ⟨t, List.mem_cons_self, hclaim⟩
    obtain ⟨newer', t', older', hsplit', hclaim', hfirst⟩ := exists_first_claim hsome
    have hsub : ∀ u ∈ older', u ∈ older := by
      intro u hu
      rcases newer' with - | ⟨v, newer'⟩
      · rw [(List.cons.inj hsplit').2]
        exact hu
      · rw [(List.cons.inj hsplit').2]
        exact List.mem_append_right _ (List.mem_cons_of_mem _ hu)
    subst hsplit
    rw [hsplit', ← List.append_assoc] at hrun hahead
    have hbefore := hrun.of_append.1
    obtain ⟨later, hlater⟩ := arrivals_append q (newer ++ newer' ++ [t']) older'
    rw [List.append_assoc, List.singleton_append] at hlater
    obtain ⟨q', rest, hhead⟩ := head_of_claim (lives_of_fresh hbefore).1 hclaim'
    have harrived : y ∈ arrivals q' older' := mem_arrivals_of_pending hbefore (by simp [hhead])
    obtain rfl : q = q' := by
      obtain ⟨later', hlater'⟩ := arrivals_append q' (newer ++ newer' ++ [t']) older'
      rw [List.append_assoc, List.singleton_append] at hlater'
      exact queue_of_arrival hrun (hahead.subset (by simp))
        (hlater' ▸ List.mem_append_left _ harrived)
    have hnodup := arrivals_nodup hrun q
    rw [hlater] at hahead hnodup
    have hahead' := ahead_of_append hnodup harrived hahead
    have horder := order_of_run hbefore q
    rw [hhead] at horder
    have hx := not_ahead_of_head horder hfirst (arrivals_nodup hbefore q) hahead'
    obtain ⟨u, hu, hclaimed⟩ := unclaimed_eq_false.1 hx
    exact ⟨u, hsub u hu, hclaimed⟩

/-- Of two jobs of a queue the first is claimed, reaped back to the head and claimed again before
the second gets its turn. -/
theorem first_delivery_fifo_recovered : ∃ h b, machine.Run Fresh h b ∧
    h.map claimOf = [some "b", some "a", none, some "a", none, none] ∧
    arrivals "q" h = ["a", "b"] ∧
    ∀ newer t older, h = newer ++ t :: older → claimOf t = some "b" →
      ∃ u ∈ older, claimOf u = some "a" := by
  let c₁ : Call := ⟨0, .enqueue "a" (some (.plain "q" "t" 3))⟩
  let c₂ : Call := ⟨1, .enqueue "b" (some (.plain "q" "t" 3))⟩
  have hfresh : Fresh [⟨new, c₁⟩] (machine.next new c₁) c₂ := by
    refine ⟨fun newID j hop t ht j' hj' ↦ ?_, by simp [c₂]⟩
    cases hop
    rw [List.mem_singleton.1 ht] at hj'
    rw [← Reply.stored.inj hj']
    decide
  have hrun : machine.Run Fresh _ _ := .step ⟨22, .dequeue ⟨"w", ["q"], 10⟩⟩
    (.step ⟨21, .dequeue ⟨"w", ["q"], 10⟩⟩ (.step ⟨20, .reap [] 5⟩
      (.step ⟨2, .dequeue ⟨"w", ["q"], 10⟩⟩ (.step c₂ (.step c₁ .start ⟨by simp, by simp [c₁]⟩)
        hfresh) ⟨by simp, by simp⟩) ⟨by simp, by simp⟩) ⟨by simp, by simp⟩) ⟨by simp, by simp⟩
  exact ⟨_, _, hrun, by decide +kernel, by decide +kernel,
    (first_delivery_fifo hrun "q").2 "a" "b" (by decide +kernel)⟩

end Memory

end TaskQueue
