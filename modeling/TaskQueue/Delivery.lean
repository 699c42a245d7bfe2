import TaskQueue.Fencing
import TaskQueue.Redis.Attempts

/-!
# Delivery to a handler

The broker hands a job out, but a handler only runs if the reply to the `Dequeue` arrives. This is
the system around the Redis broker: workers in `fetchLoop`, whose `Dequeue` takes effect in Redis
and whose reply is a **message** that is delivered or lost, and the handlers that `runJob` started
and that have not reported yet. A worker that is cancelled or dies loses the replies on their way to
it and the handlers it was running.

The contract says that every job is handed to a handler at least once. So a job may be in the
dead-letter set only if a handler was started for it. Nacks and kills come from handlers, but the
reaper counts **attempts**, and an attempt is spent when the job is claimed: a job whose every reply
was lost is dead-lettered without any handler having seen it. The accounting is `claims_eq`: every
claim is a handler that was started, a reply that was lost or a reply under way. So the contract is
kept if of every job fewer replies are lost or late than it has attempts, and a job of which as many
are lost or late is dead at the next `Reap` that finds its lease expired (`at_least_once`).
-/

namespace TaskQueue

open Keyed

namespace Redis

open Store

variable {cfg : Config} {s : Store} {c : Call} {h : List (Turn Store Call)} {id : String}

/-! ### What a call does to one job -/

/-- The events of a call about one job lead from the life the script saw to the one it left. -/
theorem fold_of_exec (hs : Located s) (hsafe : Safe (seen cfg s c) c.op) (id : String) :
    ∃ o, (eventsAt id (events cfg s c)).foldlM (Life.advance spent) ((seen cfg s c).life id) =
        some o ∧
      Life.Shown o ((exec cfg s c).2.life id) := by
  have hnew : ∀ i l, (i, .enqueued l) ∈ events cfg s c →
      events cfg s c = [(i, .enqueued l)] ∧ (seen cfg s c).life i = none := by
    intro i l hmem
    obtain ⟨newID, wall, o, j', hop, hreply, rfl, rfl⟩ := mem_events_iff.1 hmem
    rw [exec, hop] at hreply
    obtain ⟨j, st, -, rfl, rfl, -⟩ := stored_of_run hreply
    rw [hop] at hsafe
    exact ⟨by simp [events, eventsOf, hop, hreply], life_eq_none hsafe⟩
  obtain ⟨a, hfollows, hshown⟩ := (steps_exec hs hsafe).path.follows (fun _ ↦ .refl _) hnew
  exact ⟨a id, hfollows id, hshown id⟩

/-- The dead-letter set lists the jobs that are dead. -/
theorem dead_iff (hs : Located s) :
    (s.dead.lookup id).isSome ↔ ∃ l, s.life id = some l ∧ l.phase = .dead := by
  rw [(hs.counts id).2.2.2, home]
  rcases he : s.job id with _ | e
  · simp [life_eq_none he]
  · rw [life_eq_some he, Option.bind_some, placeOf_eq_some_iff]
    cases hstate : e.hash.state <;> simp [Store.phase, hstate]

/-- Expiry neither adds to the dead-letter set nor takes from it. -/
theorem dead_seen_iff (cfg : Config) (c : Call) (hs : Located s) :
    (∃ l, (seen cfg s c).life id = some l ∧ l.phase = .dead) ↔ (s.dead.lookup id).isSome :=
  (dead_iff (hs.live cfg.visible c.now).1).symm

/-- **What a reap does to a job**: it is dead after it if it was dead before, or if its lease has
expired and its budget is spent. -/
theorem dead_of_reap_iff (cfg : Config) (hs : Located s) {q : String} {limit : ℤ}
    (hop : c.op = .reap q limit) :
    ((exec cfg s c).2.dead.lookup id).isSome ↔ (s.dead.lookup id).isSome ∨
      id ∈ reaped (seen cfg s c) c.now q limit ∧
        ∃ e, (seen cfg s c).job id = some e ∧ spent e.hash.attempt e.hash.maxAttempts = true := by
  have hsafe : Safe (seen cfg s c) c.op := by rw [hop]; trivial
  obtain ⟨o, hfold, hshown⟩ := fold_of_exec hs hsafe id
  have hevents : events cfg s c =
      (reaped (seen cfg s c) c.now q limit).map fun i ↦ (i, .reaped c.now) := by
    simp only [events, eventsOf, hop]
  rw [hevents, eventsAt_map_const, count_reaped] at hfold
  rw [dead_iff (steps_exec hs hsafe).located, ← dead_seen_iff cfg c hs]
  split_ifs at hfold with hmem
  · have hadv : Life.advance spent ((seen cfg s c).life id) (.reaped c.now) = some o := by
      simpa [List.replicate_one] using hfold
    obtain ⟨l, w, d, hl, hphase, -, rfl⟩ := Life.advance_reaped_iff.1 hadv
    rcases he : (seen cfg s c).job id with _ | e
    · rw [life_eq_none he] at hl
      cases hl
    · rw [life_eq_some he] at hl
      obtain rfl := Option.some.inj hl
      have hview := hshown.resolve_right fun hgone ↦ by
        obtain ⟨-, _, ⟨⟩, hdone⟩ := hgone
        exact Life.fallTo_ne_done (by simp) hdone
      have hactive : (seen cfg s c).phase id e.hash = .active w d := hphase
      rw [hview, life_eq_some he]
      simp only [hmem, true_and, Option.some.injEq, exists_eq_left', hactive, reduceCtorEq,
        false_or, Life.fallTo]
      split_ifs with hspent <;> simp [hspent]
  · obtain rfl : (seen cfg s c).life id = o := by simpa using hfold
    simp only [hmem, false_and, or_false]
    constructor
    · rintro ⟨l, hl, hdead⟩
      rw [hl] at hshown
      exact ⟨l, hshown.eq_of_some, hdead⟩
    · rintro ⟨l, hl, hdead⟩
      rcases hshown with h | ⟨-, l', hl', hdone⟩
      · exact ⟨l, h.trans hl, hdead⟩
      · rw [hl] at hl'
        cases hl'
        rw [hdead] at hdone
        cases hdone

/-- A `Reap` acts on jobs that are stored. -/
theorem job_of_reaped (hs : Located s) {now : ℤ} {q : String} {limit : ℤ}
    (hmem : id ∈ reaped s now q limit) : ∃ e, s.job id = some e := by
  rw [reaped] at hmem
  split_ifs at hmem
  · cases hmem
  · cases hmem
  · obtain ⟨d, hlook, -⟩ := mem_dueMembers hmem
    obtain ⟨e, he, -⟩ := hs.of_lease hlook
    exact ⟨e, he⟩

/-- Every other call leaves the dead-letter set alone, unless it is a report on the job. -/
theorem dead_of_exec (hs : Located s) (hsafe : Safe (seen cfg s c) c.op)
    (hreap : ∀ q limit, c.op ≠ .reap q limit) (hrep : ∀ w, ¬ Reports c w id)
    (hdead : ((exec cfg s c).2.dead.lookup id).isSome) : (s.dead.lookup id).isSome := by
  obtain ⟨o, hfold, hshown⟩ := fold_of_exec hs hsafe id
  obtain ⟨l, hl, hphase⟩ := (dead_iff (steps_exec hs hsafe).located).1 hdead
  rw [hl] at hshown
  rw [hshown.eq_of_some] at hfold
  refine (dead_seen_iff _ _ hs).1 (Life.dead_of_not_failed hfold hphase fun e he ↦ ?_)
  have hdid := mem_events_iff.1 (mem_eventsAt.1 he)
  cases e with
  | nacked w r =>
    obtain ⟨t, reason, hop, -⟩ := hdid
    exact absurd (.inr (.inl ⟨t, reason, hop⟩)) (hrep w)
  | killed w =>
    obtain ⟨reason, hop, -⟩ := hdid
    exact absurd (.inr (.inr ⟨reason, hop⟩)) (hrep w)
  | reaped now =>
    obtain ⟨q, limit, hop, -⟩ := hdid
    exact absurd hop (hreap q limit)
  | _ => rfl

section Names

variable (cfg)

/-- What a run may do next if every ID is new and a proper one: `NewID` never returns the empty
string. -/
structure Issued (h : List (Turn Store Call)) (s : Store) (c : Call) : Prop where
  fresh : Fresh cfg h s c
  named : ∀ newID wall o, c.op = .enqueue newID wall o → newID ≠ ""

/-- What a run may do next if also the server time does not go back. -/
structure Named (h : List (Turn Store Call)) (s : Store) (c : Call) : Prop where
  admissible : Admissible cfg h s c
  named : ∀ newID wall o, c.op = .enqueue newID wall o → newID ≠ ""

end Names

theorem Issued.run (hrun : (machine cfg).Run (Issued cfg) h s) :
    (machine cfg).Run (Fresh cfg) h s := hrun.mono fun _ _ _ _ hok ↦ hok.fresh

theorem Named.run (hrun : (machine cfg).Run (Named cfg) h s) :
    (machine cfg).Run (Admissible cfg) h s := hrun.mono fun _ _ _ _ hok ↦ hok.admissible

theorem Named.issued (hrun : (machine cfg).Run (Named cfg) h s) :
    (machine cfg).Run (Issued cfg) h s :=
  hrun.mono fun _ _ _ _ hok ↦ ⟨hok.admissible.fresh, hok.named⟩

theorem id_ne_empty (hrun : (machine cfg).Run (Issued cfg) h s) {e : Entry}
    (he : s.job id = some e) : id ≠ "" := by
  obtain ⟨-, a, hfollows, hshown⟩ := lives_of_fresh (Issued.run hrun)
  obtain ⟨l, hl⟩ := enqueued_of_shown hfollows (hshown id) (by simp [life_eq_some he])
  obtain ⟨t, ht, hdid⟩ := mem_history.1 hl
  obtain ⟨newID, wall, o, j', hop, hreply, rfl, -⟩ := mem_events_iff.1 hdid
  obtain ⟨newer, older, rfl⟩ := List.append_of_mem ht
  have hnamed := hrun.of_append.2.named newID wall o hop
  rw [exec, hop] at hreply
  obtain ⟨j, st, -, rfl, rfl, -⟩ := stored_of_run hreply
  simp only [Job.assigned]
  split_ifs with hid
  · exact hnamed
  · exact hid

end Redis

namespace Delivery

open Redis

/-! ### The system -/

/-- What a `Dequeue` returned, and to whom. -/
structure Message where
  worker : String
  job : Job

/-- Redis, and what the workers are doing. -/
structure System where
  store : Store
  /-- The replies to `Dequeue`s that are under way. -/
  replies : List Message
  /-- The handlers `runJob` has started and that have not reported. -/
  running : List Message

/-- What a handler returned: `nil`, an `ErrSkipRetry` or another error, for which `runJob` computes
the time of the retry. -/
inductive Outcome
  | success
  | skipRetry (reason : String)
  | failure (retryAt : Time) (reason : String)

/-- The steps of the system. -/
inductive Step
  /-- A client's call; a `Dequeue` that claims a job sends a reply. -/
  | call (c : Call)
  /-- A reply arrives, and the worker starts the handler. -/
  | deliver (i : ℕ)
  /-- A reply is lost: a timeout, a cancelled context, a worker that died. -/
  | lose (i : ℕ)
  /-- A handler returns, and `runJob` reports to Redis. -/
  | report (now : ℤ) (i : ℕ) (outcome : Outcome)
  /-- A handler dies with its worker. -/
  | crash (i : ℕ)

/-- The report `runJob` makes. -/
def reportOp (m : Message) : Outcome → Op
  | .success => .ack m.worker m.job.id
  | .skipRetry reason => .kill m.worker m.job.id reason
  | .failure retryAt reason => .nack m.worker m.job.id retryAt reason

/-- The reply a call sends to a worker. -/
def replyTo (op : Op) (r : Reply) : List Message :=
  match op, r with
  | .dequeue o, .claimed j => [⟨o.workerID, j⟩]
  | _, _ => []

variable (cfg : Config)

/-- What a step does. -/
def next (s : System) : Step → System
  | .call c =>
    { s with
      store := (exec cfg s.store c).2
      replies := s.replies ++ replyTo c.op (exec cfg s.store c).1 }
  | .deliver i =>
    { s with replies := s.replies.eraseIdx i, running := s.running ++ s.replies[i]?.toList }
  | .lose i => { s with replies := s.replies.eraseIdx i }
  | .report now i outcome =>
    match s.running[i]? with
    | none => s
    | some m =>
      { s with
        store := (exec cfg s.store ⟨now, reportOp m outcome⟩).2
        running := s.running.eraseIdx i }
  | .crash i => { s with running := s.running.eraseIdx i }

/-- The system under any sequence of steps. -/
def machine : Machine System Step where
  init := ⟨.empty, [], []⟩
  next := next cfg

/-! ### The calls of a run -/

/-- The call a turn made, if any. -/
def callOf (t : Turn System Step) : Option Call :=
  match t.input with
  | .call c => some c
  | .report now i outcome => t.before.running[i]?.map fun m ↦ ⟨now, reportOp m outcome⟩
  | _ => none

/-- The run of the broker inside a run of the system. -/
def calls (h : List (Turn System Step)) : List (Turn Store Call) :=
  h.filterMap fun t ↦ (callOf t).map fun c ↦ ⟨t.before.store, c⟩

/-- What the system may do next. The calls of its clients are admissible, and a worker reports only
what a handler it has run returned. -/
def Works (h : List (Turn System Step)) (s : System) : Step → Prop
  | .call c => Named cfg (calls h) s.store c ∧ ∀ w id, ¬ Reports c w id
  | .report now _ _ => ∀ t ∈ calls h, t.input.now ≤ now
  | _ => True

variable {cfg} {h : List (Turn System Step)} {s : System} {t : Turn System Step} {id : String}

theorem calls_cons (t : Turn System Step) (h : List (Turn System Step)) :
    calls (t :: h) = ((callOf t).map fun c ↦ ⟨t.before.store, c⟩).toList ++ calls h := by
  rw [calls, List.filterMap_cons]
  rcases callOf t with _ | c <;> rfl

/-- A turn that makes no call leaves the store alone, and one that makes a call executes it. -/
theorem store_next (s : System) (i : Step) :
    (next cfg s i).store = match callOf ⟨s, i⟩ with
      | none => s.store
      | some c => (exec cfg s.store c).2 := by
  cases i with
  | call c => rfl
  | deliver i => rfl
  | lose i => rfl
  | report now i outcome =>
    simp only [next, callOf]
    rcases s.running[i]? with _ | m <;> rfl
  | crash i => rfl

theorem callOf_admissible {i : Step} (hok : Works cfg h s i) {c : Call}
    (hc : callOf ⟨s, i⟩ = some c) : Named cfg (calls h) s.store c := by
  cases i with
  | call c' =>
    obtain rfl := Option.some.inj hc
    exact hok.1
  | report now i outcome =>
    obtain ⟨m, -, rfl⟩ := Option.map_eq_some_iff.1 hc
    refine ⟨⟨hok, fun _ _ _ hop ↦ ?_⟩, fun _ _ _ hop ↦ ?_⟩ <;> cases outcome <;> cases hop
  | deliver i => cases hc
  | lose i => cases hc
  | crash i => cases hc

/-- **Inside every run of the system there is a run of the broker.** -/
theorem run_calls (hrun : (machine cfg).Run (Works cfg) h s) :
    (Redis.machine cfg).Run (Named cfg) (calls h) s.store := by
  refine hrun.invariant (P := fun h s ↦ (Redis.machine cfg).Run (Named cfg) (calls h) s.store)
    .start fun h s i _ hprev hok ↦ ?_
  show (Redis.machine cfg).Run (Named cfg) (calls (⟨s, i⟩ :: h)) (next cfg s i).store
  rw [calls_cons, store_next]
  rcases hc : callOf ⟨s, i⟩ with _ | c
  · exact hprev
  · exact .step c hprev (callOf_admissible hok hc)

/-! ### Where the claims went -/

/-- The job whose handler the turn started. -/
def startOf (t : Turn System Step) : Option String :=
  match t.input with
  | .deliver i => t.before.replies[i]?.map fun m ↦ m.job.id
  | _ => none

/-- The job whose reply the turn lost. -/
def lossOf (t : Turn System Step) : Option String :=
  match t.input with
  | .lose i => t.before.replies[i]?.map fun m ↦ m.job.id
  | _ => none

/-- How many handlers were started for the job. -/
def starts (h : List (Turn System Step)) (id : String) : ℕ := h.countP fun t ↦ startOf t = some id

/-- How many replies with the job were lost. -/
def losses (h : List (Turn System Step)) (id : String) : ℕ := h.countP fun t ↦ lossOf t = some id

/-- How many replies with the job are under way. -/
def underway (s : System) (id : String) : ℕ := s.replies.countP fun m ↦ m.job.id = id

theorem countP_eraseIdx {α : Type*} (p : α → Bool) (l : List α) : ∀ i : ℕ,
    l.countP p = (l.eraseIdx i).countP p + (l[i]?.map fun a ↦ if p a then 1 else 0).getD 0 := by
  induction l with
  | nil => simp
  | cons a l ih =>
    intro i
    cases i with
    | zero => simp [List.countP_cons]
    | succ i =>
      simp only [List.eraseIdx_cons_succ, List.countP_cons, List.getElem?_cons_succ]
      rw [ih i]
      omega

/-- Taking a reply off the wire. -/
theorem underway_eraseIdx (s : System) (i : ℕ) (id : String) :
    underway s id = (s.replies.eraseIdx i).countP (fun m ↦ m.job.id = id) +
      if s.replies[i]?.map (fun m ↦ m.job.id) = some id then 1 else 0 := by
  rw [underway, countP_eraseIdx _ _ i]
  rcases s.replies[i]? with _ | m
  · simp
  · simp

/-- A call that claims a job sends a reply with it. -/
theorem countP_replyTo {store : Store} {ch : List (Turn Store Call)}
    (hrun : (Redis.machine cfg).Run (Named cfg) ch store) (c : Call) (id : String) :
    (replyTo c.op (exec cfg store c).1).countP (fun m ↦ m.job.id = id) =
      if claimOf cfg ⟨store, c⟩ = some id then 1 else 0 := by
  by_cases hop : ∃ o, c.op = .dequeue o
  · obtain ⟨o, hop⟩ := hop
    rcases hres : (claimNext (seen cfg store c) c.now o).1 with err | hash
    · have hreply : ∀ j, (exec cfg store c).1 ≠ .claimed j := fun j hj ↦ by
        obtain ⟨h, hh, -⟩ := (claimed_iff hop).1 hj
        rw [hres] at hh
        cases hh
      simp only [claimOf, hop, hres, replyTo]
      split
      · next _ j _ hj => exact absurd hj (hreply j)
      · rfl
    · have hid : hash.id ≠ "" := by
        have hloc := (located_of_run (Named.run hrun)).live cfg.visible c.now
        rcases claimNext_cases hloc.1 c.now o with ⟨err, heq⟩ | ⟨-, q, -, i, rest, e, -, he, heq⟩
        · rw [show (claimNext (seen cfg store c) c.now o) = _ from heq] at hres
          cases hres
        · rw [show (claimNext (seen cfg store c) c.now o) = _ from heq] at hres
          obtain rfl := Except.ok.inj hres
          show e.hash.id ≠ ""
          rw [hloc.1.keyed i e he]
          exact id_ne_empty (Named.issued hrun) (Option.filter_eq_some_iff.1 he).1
      obtain ⟨j, hj, hjid⟩ := decodeJob_of_ne hid
      have hreply : (exec cfg store c).1 = .claimed j := (claimed_iff hop).2 ⟨hash, hres, hj⟩
      simp only [claimOf, hop, hres, replyTo, hreply, List.countP_singleton, hjid,
        Option.some.injEq, decide_eq_true_eq]
  · have hclaim : claimOf cfg ⟨store, c⟩ = none := by
      rw [claimOf]
      split
      · next o heq => exact absurd ⟨o, heq⟩ hop
      · rfl
    have hnone : replyTo c.op (exec cfg store c).1 = [] := by
      unfold replyTo
      split
      · next o j heq _ => exact absurd ⟨o, heq⟩ hop
      · rfl
    rw [hclaim, hnone]
    rfl

theorem starts_cons (t : Turn System Step) (h : List (Turn System Step)) (id : String) :
    starts (t :: h) id = starts h id + if startOf t = some id then 1 else 0 := by
  simp only [starts, List.countP_cons, decide_eq_true_eq]

theorem losses_cons (t : Turn System Step) (h : List (Turn System Step)) (id : String) :
    losses (t :: h) id = losses h id + if lossOf t = some id then 1 else 0 := by
  simp only [losses, List.countP_cons, decide_eq_true_eq]

theorem claims_cons (t : Turn Store Call) (ch : List (Turn Store Call)) (id : String) :
    claims cfg (t :: ch) id = claims cfg ch id + if claimOf cfg t = some id then 1 else 0 := by
  simp only [claims, List.countP_cons, decide_eq_true_eq]

/-- **Every claim is accounted for**: a handler was started, the reply was lost, or it is still
under way. -/
theorem claims_eq (hrun : (machine cfg).Run (Works cfg) h s) (id : String) :
    claims cfg (calls h) id = starts h id + losses h id + underway s id := by
  refine hrun.invariant (P := fun h s ↦ claims cfg (calls h) id =
    starts h id + losses h id + underway s id) rfl fun h s i hprev ih hok ↦ ?_
  show claims cfg (calls (⟨s, i⟩ :: h)) id =
    starts (⟨s, i⟩ :: h) id + losses (⟨s, i⟩ :: h) id + underway (next cfg s i) id
  rw [starts_cons, losses_cons]
  cases i with
  | call c =>
    have hsent := countP_replyTo (run_calls hprev) c id
    have hcalls : calls (⟨s, .call c⟩ :: h) = ⟨s.store, c⟩ :: calls h := rfl
    have hunder : underway (next cfg s (.call c)) id = underway s id +
        (replyTo c.op (exec cfg s.store c).1).countP fun m ↦ m.job.id = id := List.countP_append
    rw [hcalls, claims_cons, hunder, hsent, ih]
    show _ = starts h id + 0 + (losses h id + 0) + _
    omega
  | deliver i =>
    have htaken := underway_eraseIdx s i id
    have hunder : underway (next cfg s (.deliver i)) id =
        (s.replies.eraseIdx i).countP fun m ↦ m.job.id = id := rfl
    rw [show calls (⟨s, .deliver i⟩ :: h) = calls h from rfl, hunder, ih, htaken]
    show _ = starts h id + (if s.replies[i]?.map (fun m ↦ m.job.id) = some id then 1 else 0) +
      (losses h id + 0) + _
    omega
  | lose i =>
    have htaken := underway_eraseIdx s i id
    have hunder : underway (next cfg s (.lose i)) id =
        (s.replies.eraseIdx i).countP fun m ↦ m.job.id = id := rfl
    rw [show calls (⟨s, .lose i⟩ :: h) = calls h from rfl, hunder, ih, htaken]
    show _ = starts h id + 0 +
      (losses h id + if s.replies[i]?.map (fun m ↦ m.job.id) = some id then 1 else 0) + _
    omega
  | report now i outcome =>
    have hunder : underway (next cfg s (.report now i outcome)) id = underway s id := by
      rw [next]
      rcases s.running[i]? with _ | m <;> rfl
    have hclaim : claims cfg (calls (⟨s, .report now i outcome⟩ :: h)) id =
        claims cfg (calls h) id := by
      rw [calls_cons]
      rcases hc : callOf ⟨s, .report now i outcome⟩ with _ | c
      · rfl
      · obtain ⟨m, -, rfl⟩ := Option.map_eq_some_iff.1 hc
        rw [Option.map_some, Option.toList_some, List.singleton_append, claims_cons]
        cases outcome <;> rfl
    rw [hclaim, ih, hunder]
    rfl
  | crash i => exact ih

/-- A handler that runs was started. -/
theorem started_of_running (hrun : (machine cfg).Run (Works cfg) h s) :
    ∀ m ∈ s.running, 0 < starts h m.job.id := by
  refine hrun.invariant (P := fun h s ↦ ∀ m ∈ s.running, 0 < starts h m.job.id)
    (fun m hm ↦ by cases hm) fun h s i _ ih _ m hm ↦ ?_
  have hold : m ∈ s.running → 0 < starts (⟨s, i⟩ :: h) m.job.id := fun hm ↦ by
    rw [starts_cons]
    have := ih m hm
    omega
  cases i with
  | call c => exact hold hm
  | deliver i =>
    rcases List.mem_append.1 hm with hm | hm
    · exact hold hm
    · have hstart : startOf ⟨s, .deliver i⟩ = some m.job.id := by
        show s.replies[i]?.map (fun m ↦ m.job.id) = _
        rw [Option.mem_toList.1 hm]
        rfl
      rw [starts_cons, if_pos hstart]
      omega
  | lose i => exact hold hm
  | report now i outcome =>
    refine hold ?_
    simp only [machine, next] at hm
    rcases hi : s.running[i]? with _ | m'
    · rw [hi] at hm
      exact hm
    · rw [hi] at hm
      exact List.mem_of_mem_eraseIdx hm
  | crash i => exact hold (List.mem_of_mem_eraseIdx hm)

/-! ### The contract -/

variable (cfg) in
/-- Of every job, fewer replies are lost or under way than it has attempts. The scripts lose count
at `2 ^ 53`, so they have to be fewer than that, too. -/
def Reliable (h : List (Turn System Step)) (s : System) : Prop :=
  ∀ j, Accepted cfg (calls h) j →
    (losses h j.id + underway s j.id : ℤ) < min j.maxAttempts (2 ^ 53)

variable (cfg) in
/-- What the system may do next if replies are reliable whenever there is a `Reap`. -/
structure Delivers (h : List (Turn System Step)) (s : System) (i : Step) : Prop where
  works : Works cfg h s i
  reliable : ∀ now q limit, i = .call ⟨now, .reap q limit⟩ → Reliable cfg h s

theorem Delivers.run (hrun : (machine cfg).Run (Delivers cfg) h s) :
    (machine cfg).Run (Works cfg) h s := hrun.mono fun _ _ _ _ hok ↦ hok.works

/-- A job was handed to a handler exactly if not all replies to its claims are lost or under way. -/
theorem starts_pos_iff (hrun : (machine cfg).Run (Works cfg) h s) {c : Call} {e : Entry}
    (he : (seen cfg s.store c).job id = some e) :
    0 < starts h id ↔ losses h id + underway s id < e.hash.attempt := by
  have hjob : s.store.job id = some e := (Option.filter_eq_some_iff.1 he).1
  rw [attempt_eq_claims (Named.run (run_calls hrun)) hjob, claims_eq hrun id]
  push_cast
  omega

/-- If replies are reliable, the budget is not spent on lost and late ones alone. -/
theorem Reliable.lt_attempt (hreliable : Reliable cfg h s)
    (hrun : (machine cfg).Run (Works cfg) h s) {c : Call} {e : Entry}
    (he : (seen cfg s.store c).job id = some e)
    (hspent : spent e.hash.attempt e.hash.maxAttempts = true) :
    losses h id + underway s id < e.hash.attempt := by
  have hjob : s.store.job id = some e := (Option.filter_eq_some_iff.1 he).1
  obtain ⟨j, hj, rfl, hmax⟩ := accepted_of_job (Named.run (run_calls hrun)) hjob
  rw [hmax] at hspent
  exact (hreliable j hj).trans_le (min_le_of_spent hj.maxAttempts_pos hspent)

/-- **A job dies unheard** if a `Reap` finds its lease expired and all of its attempts are lost or
under way. -/
theorem dead_of_unreliable (hrun : (machine cfg).Run (Works cfg) h s) {j : Job}
    (hj : Accepted cfg (calls h) j) (hlost : j.maxAttempts ≤ losses h j.id + underway s j.id)
    {c : Call} {q : String} {limit : ℤ} (hop : c.op = .reap q limit)
    (hmem : j.id ∈ reaped (seen cfg s.store c) c.now q limit) :
    ((next cfg s (.call c)).store.dead.lookup j.id).isSome ∧ starts h j.id = 0 := by
  have hbroker := Named.run (run_calls hrun)
  have hloc := located_of_run hbroker
  obtain ⟨e, he⟩ := job_of_reaped (hloc.live cfg.visible c.now).1 hmem
  have hjob : s.store.job j.id = some e := (Option.filter_eq_some_iff.1 he).1
  have hclaims := claims_eq hrun j.id
  have hle := claims_le_of_accepted hbroker hj
  refine ⟨(dead_of_reap_iff cfg hloc hop).2 (.inr ⟨hmem, e, he, spent_sound _ _ ?_⟩), by omega⟩
  rw [maxAttempts_of_accepted hbroker hj hjob, attempt_eq_claims hbroker hjob]
  omega

theorem starts_call (c : Call) (id : String) : starts (⟨s, .call c⟩ :: h) id = starts h id := by
  rw [starts_cons, if_neg (by simp [startOf])]
  rfl

/-- **One step keeps the contract.** -/
theorem started_of_dead_step (hrun : (machine cfg).Run (Works cfg) h s) {i : Step}
    (hok : Delivers cfg h s i) (ih : ∀ id, (s.store.dead.lookup id).isSome → 0 < starts h id)
    (hdead : ((next cfg s i).store.dead.lookup id).isSome) : 0 < starts (⟨s, i⟩ :: h) id := by
  have hbroker := Named.run (run_calls hrun)
  have hloc := located_of_run hbroker
  have hold : 0 < starts h id → 0 < starts (⟨s, i⟩ :: h) id := fun hpos ↦ by
    rw [starts_cons]
    omega
  rw [store_next] at hdead
  rcases hc : callOf ⟨s, i⟩ with _ | c
  · rw [hc] at hdead
    exact hold (ih id hdead)
  · rw [hc] at hdead
    have hsafe := (callOf_admissible hok.works hc).admissible.safe_of_run hbroker
    by_cases hreap : ∃ q limit, c.op = .reap q limit
    · obtain ⟨q, limit, hop⟩ := hreap
      rcases (dead_of_reap_iff cfg hloc hop).1 hdead with hdead | ⟨hmem, e, he, hspent⟩
      · exact hold (ih id hdead)
      · -- the reaper counts attempts, and one of them reached a handler
        have hcall : i = .call c := by
          cases i with
          | call c' => rw [Option.some.inj hc]
          | report now i outcome =>
            obtain ⟨m, -, rfl⟩ := Option.map_eq_some_iff.1 hc
            cases outcome <;> cases hop
          | deliver i => cases hc
          | lose i => cases hc
          | crash i => cases hc
        have hreliable := hok.reliable c.now q limit (by rw [hcall, ← hop])
        exact hold ((starts_pos_iff hrun he).2 (hreliable.lt_attempt hrun he hspent))
    · by_cases hrep : ∃ w, Reports c w id
      · -- a report comes from a handler
        obtain ⟨w, hrep⟩ := hrep
        cases i with
        | call c' =>
          obtain rfl := Option.some.inj hc
          exact absurd hrep (hok.works.2 w id)
        | report now i outcome =>
          obtain ⟨m, hm, rfl⟩ := Option.map_eq_some_iff.1 hc
          have hid : m.job.id = id := by
            rcases hrep with hop | ⟨_, _, hop⟩ | ⟨_, hop⟩ <;> cases outcome <;> cases hop <;> rfl
          rw [← hid] at hold ⊢
          exact hold (started_of_running hrun m (List.mem_of_getElem? hm))
        | deliver i => cases hc
        | lose i => cases hc
        | crash i => cases hc
      · refine hold (ih id (dead_of_exec hloc hsafe (fun q limit hop ↦ hreap ⟨q, limit, hop⟩)
          (fun w hw ↦ hrep ⟨w, hw⟩) hdead))

/-- **At-least-once delivery.** In every run of the system in which, whenever there is a `Reap`, of
every job fewer replies are lost or under way than it has attempts, a job is in the dead-letter set
only if a handler was started for it. And no more can be asked of the reaper: a job of which as many
replies are lost or under way as it has attempts is dead-lettered by the next `Reap` that finds its
lease expired, and no handler was started for it. -/
theorem at_least_once (cfg : Config) :
    (∀ h s, (machine cfg).Run (Delivers cfg) h s →
      ∀ id, (s.store.dead.lookup id).isSome → 0 < starts h id) ∧
    ∀ h s, (machine cfg).Run (Works cfg) h s → ∀ j, Accepted cfg (calls h) j →
      j.maxAttempts ≤ losses h j.id + underway s j.id → ∀ c q limit, c.op = .reap q limit →
        j.id ∈ reaped (seen cfg s.store c) c.now q limit →
          ((next cfg s (.call c)).store.dead.lookup j.id).isSome ∧
            starts (⟨s, .call c⟩ :: h) j.id = 0 := by
  refine ⟨fun h s hrun ↦ ?_, fun h s hrun j hj hlost c q limit hop hmem ↦ ?_⟩
  · refine hrun.invariant (P := fun h s ↦ ∀ id, (s.store.dead.lookup id).isSome → 0 < starts h id)
      (fun id hid ↦ by cases hid) fun h s i hprev ih hok id hdead ↦ ?_
    exact started_of_dead_step (Delivers.run hprev) hok ih hdead
  · rw [starts_call]
    exact dead_of_unreliable hrun hj hlost hop hmem

/-- A job with two attempts: the reply to the first claim is lost, and the handler of the second one
dies with its worker. -/
def unlucky : List Step :=
  [.call ⟨0, .enqueue "a" 0 (some (.plain "q" "t" 2))⟩,
    .call ⟨1, .dequeue ⟨"w", ["q"], millisecond⟩⟩, .lose 0, .call ⟨2, .reap "q" 1⟩,
    .call ⟨3, .dequeue ⟨"w", ["q"], millisecond⟩⟩, .deliver 0, .crash 0, .call ⟨4, .reap "q" 1⟩]

/-- The run of a list of steps. -/
def played (steps : List Step) : List (Turn System Step) × System :=
  (machine .default).play [] (machine .default).init steps

/-- A worker or the reaper may call when the time has come. -/
theorem works_call {c : Call} (hclock : ∀ t ∈ calls h, t.input.now ≤ c.now)
    (hop : (∃ o, c.op = .dequeue o) ∨ ∃ q limit, c.op = .reap q limit) :
    Works cfg h s (.call c) := by
  obtain ⟨now, op⟩ := c
  rcases hop with ⟨o, rfl⟩ | ⟨q, limit, rfl⟩
  · exact ⟨⟨⟨hclock, by simp⟩, by simp⟩, by simp [Reports]⟩
  · exact ⟨⟨⟨hclock, by simp⟩, by simp⟩, by simp [Reports]⟩

variable (cfg) in
/-- The jobs that calls have stored. -/
def storedJobs (ch : List (Turn Store Call)) : List Job :=
  ch.filterMap fun t ↦
    match Redis.reply cfg t with
    | .stored j => some j
    | _ => none

theorem reliable_of_storedJobs (hlt : ∀ j ∈ storedJobs cfg (calls h),
    (losses h j.id + underway s j.id : ℤ) < min j.maxAttempts (2 ^ 53)) : Reliable cfg h s := by
  rintro j ⟨t, ht, newID, wall, o, -, hreply⟩
  exact hlt j (List.mem_filterMap.2 ⟨t, ht, by simp only [hreply]⟩)

theorem at_least_once_unlucky : (machine .default).Run (Delivers .default) (played unlucky).1
    (played unlucky).2 ∧ ((played unlucky).2.store.dead.lookup "a").isSome ∧
      0 < starts (played unlucky).1 "a" := by
  have hrun : (machine .default).Run (Delivers .default) (played unlucky).1
      (played unlucky).2 := by
    refine .play unlucky .start ⟨⟨?_, ?_⟩, ⟨?_, ?_⟩, ⟨?_, ?_⟩, ⟨?_, ?_⟩, ⟨?_, ?_⟩, ⟨?_, ?_⟩,
      ⟨?_, ?_⟩, ⟨?_, ?_⟩, trivial⟩
    · exact ⟨⟨⟨by simp [calls], by simp [calls]⟩, by simp⟩, by simp [Reports]⟩
    · simp
    · exact works_call (by decide +kernel) (.inl ⟨_, rfl⟩)
    · simp
    · trivial
    · simp
    · exact works_call (by decide +kernel) (.inr ⟨_, _, rfl⟩)
    · exact fun _ _ _ _ ↦ reliable_of_storedJobs (by decide +kernel)
    · exact works_call (by decide +kernel) (.inl ⟨_, rfl⟩)
    · simp
    · trivial
    · simp
    · trivial
    · simp
    · exact works_call (by decide +kernel) (.inr ⟨_, _, rfl⟩)
    · exact fun _ _ _ _ ↦ reliable_of_storedJobs (by decide +kernel)
  have hdead : ((played unlucky).2.store.dead.lookup "a").isSome := by decide +kernel
  exact ⟨hrun, hdead, (at_least_once .default).1 _ _ hrun "a" hdead⟩

/-- **A job dies unheard.** A job with one attempt is enqueued and claimed, the reply is lost, and
the reaper dead-letters the job without any handler having been started for it. -/
theorem dead_without_handler : ∃ h s, (machine .default).Run (Works .default) h s ∧
    Enqueued .default (calls h) "a" ∧ (s.store.dead.lookup "a").isSome ∧ starts h "a" = 0 := by
  let i₁ : Step := .call ⟨0, .enqueue "a" 0 (some (.plain "q" "t" 1))⟩
  let i₂ : Step := .call ⟨1, .dequeue ⟨"w", ["q"], millisecond⟩⟩
  let i₃ : Step := .lose 0
  let i₄ : Step := .call ⟨2, .reap "q" 1⟩
  let s₁ := next .default ⟨.empty, [], []⟩ i₁
  let s₂ := next .default s₁ i₂
  let s₃ := next .default s₂ i₃
  have hrun : (machine .default).Run (Works .default)
      [⟨s₃, i₄⟩, ⟨s₂, i₃⟩, ⟨s₁, i₂⟩, ⟨⟨.empty, [], []⟩, i₁⟩] (next .default s₃ i₄) := by
    refine .step i₄ (.step i₃ (.step i₂ (.step i₁ .start ?_) ?_) trivial) ?_
    · exact ⟨⟨⟨by simp [calls], by simp [calls]⟩, by simp⟩, by simp [Reports]⟩
    · exact ⟨⟨⟨by simp [calls, callOf, i₁], by simp⟩, by simp⟩, by simp [Reports]⟩
    · exact ⟨⟨⟨by simp [calls, callOf, i₁, i₂, i₃], by simp⟩, by simp⟩, by simp [Reports]⟩
  have hdead : ((next .default s₃ i₄).store.dead.lookup "a").isSome := by decide +kernel
  refine ⟨_, _, hrun, ?_, hdead, by decide +kernel⟩
  refine ⟨⟨.empty, ⟨0, .enqueue "a" 0 (some (.plain "q" "t" 1))⟩⟩, ?_, _, _, _, _, rfl, rfl, rfl⟩
  simp [calls, callOf, i₁, i₂, i₃, i₄]

end Delivery

end TaskQueue
