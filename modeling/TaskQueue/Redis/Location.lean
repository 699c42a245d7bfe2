import TaskQueue.Redis.Steps

/-!
# Every job in Redis is in exactly one place

Each script is a sequence of the moves of `TaskQueue.Redis.Steps`, and so is every call
(`steps_exec`), whatever the clients do and in whatever order. None of `dequeue.lua`, `reap.lua` and
`promote.lua` looks at the `state` field of a job before moving it; that they only move jobs in the
state they assume is what the invariant, kept by all the other scripts, gives them.

The invariant needs one thing from the callers: **an enqueued ID is new**. `enqueue.lua` writes the
hash and pushes the ID without asking whether the job exists, and what follows when it does is
`TaskQueue.Redis.Reexecution`.
-/

namespace TaskQueue.Redis

open Keyed Table Script

namespace Store

variable {s s' s'' : Store} {now : ℤ} {id q w : String} {h : Hash} {e : Entry} {ev : Event}
  {evs : List (String × Event)}

/-- A sequence of moves that leaves every job in its place. -/
structure Steps (s : Store) (evs : List (String × Event)) (s' : Store) : Prop where
  located : Located s'
  path : Path spent life s evs s'
  /-- A job that no move is about keeps its whole entry. -/
  frame : ∀ x, (∀ ev, (x, ev) ∉ evs) → s'.job x = s.job x

theorem Steps.refl (hs : Located s) : Steps s [] s := ⟨hs, .nil s, fun _ _ ↦ rfl⟩

theorem Moves.steps (m : Moves s id ev s') (hs : Steps s' evs s'') :
    Steps s ((id, ev) :: evs) s'' := by
  obtain ⟨o, hev, hshown⟩ := m.life
  refine ⟨hs.located, .move (fun x hx ↦ m.frame.life hx) hev hshown hs.path, fun x hx ↦ ?_⟩
  have hne : x ≠ id := fun heq ↦ hx ev (heq ▸ List.mem_cons_self)
  rw [hs.frame x fun ev' h ↦ hx ev' (List.mem_cons_of_mem _ h), m.frame.job x hne]

theorem Moves.single (m : Moves s id ev s') : Steps s [(id, ev)] s' := m.steps (.refl m.located)

/-! ### The loops -/

/-- The inner loop of `dequeue.lua` never meets an ID without a hash. -/
theorem popJob_cases (hs : Located s) (now : ℤ) (w : String) (vt : ℤ) (q : String) (n : ℕ) :
    (popJob now w vt q (n + 1) s = (none, s) ∧ s.ready q = []) ∨
    ∃ id rest e, s.ready q = id :: rest ∧ s.job id = some e ∧
      popJob now w vt q (n + 1) s =
        (some (claimed now w vt e.hash), claim (s.lpop q) now w vt q id e.hash) := by
  rcases hq : s.ready q with _ | ⟨id, rest⟩
  · exact .inl ⟨by simp only [popJob, hq], rfl⟩
  · obtain ⟨e, he, -, -⟩ := hs.of_head hq
    exact .inr ⟨id, rest, e, rfl, he, by simp only [popJob, hq, he]⟩

/-- **What `dequeue.lua` finds**: the head of the first ready list that is not empty. -/
theorem dequeue_cases (hs : Located s) (now : ℤ) (w : String) (vt : ℤ) (qs : List String) :
    (Script.dequeue now w vt qs s = (none, s) ∧ ∀ q ∈ qs, s.ready q = []) ∨
    ∃ q ∈ qs, ∃ id rest e, s.ready q = id :: rest ∧ s.job id = some e ∧
      Script.dequeue now w vt qs s =
        (some (claimed now w vt e.hash), claim (s.lpop q) now w vt q id e.hash) := by
  induction qs with
  | nil => exact .inl ⟨rfl, by simp⟩
  | cons q qs ih =>
    rcases popJob_cases hs now w vt q 19 with ⟨hpop, hq⟩ | ⟨id, rest, e, hq, he, hpop⟩
    · rcases ih with ⟨heq, hempty⟩ | ⟨q', hq', hclaim⟩
      · exact .inl ⟨by rw [Script.dequeue, hpop]; exact heq, by simpa [hq] using hempty⟩
      · refine .inr ⟨q', List.mem_cons_of_mem _ hq', ?_⟩
        rw [Script.dequeue, hpop]
        exact hclaim
    · exact .inr ⟨q, List.mem_cons_self, id, rest, e, hq, he, by rw [Script.dequeue, hpop]⟩

/-- The fence lets exactly the holder of the lease through. -/
theorem fence_eq_ok : fence s w id = .ok h ↔
    ∃ e, s.job id = some e ∧ e.hash = h ∧ h.state = .active ∧ h.owner = w := by
  rw [fence]
  rcases s.job id with _ | e
  · simp
  · by_cases hfence : e.hash.state ≠ .active ∨ e.hash.owner ≠ w
    · simp only [if_pos hfence, Option.some.injEq, reduceCtorEq, false_iff]
      rintro ⟨_, rfl, rfl, hstate, howner⟩
      exact hfence.elim (· hstate) (· howner)
    · simp only [if_neg hfence, Except.ok.injEq, Option.some.injEq]
      rw [not_or, not_not, not_not] at hfence
      constructor
      · rintro rfl
        exact ⟨e, rfl, rfl, hfence⟩
      · rintro ⟨_, rfl, heq, -⟩
        exact heq

/-- Renewing a lease changes nobody's ownership. -/
theorem isOk_fence_renew (he : s.job id = some e) (deadline : ℤ) (w x : String) :
    (fence (renew s id e.hash deadline) w x).isOk = (fence s w x).isOk := by
  by_cases hx : x = id
  · subst hx
    simp only [fence, renew, zaddActive, hset, Function.update_self, he]
    split <;> rfl
  · simp only [fence, renew, zaddActive, hset, Function.update_of_ne hx]

theorem renewed_renew (he : s.job id = some e) (deadline : ℤ) (w : String) (ids : List String) :
    renewed (renew s id e.hash deadline) w ids = renewed s w ids :=
  List.filter_congr fun x _ ↦ isOk_fence_renew he deadline w x

theorem steps_extend {deadline : ℤ} {ids : List String} : ∀ {s : Store}, Located s →
    Steps s ((renewed s w ids).map fun i ↦ (i, .extended w deadline))
      (Script.extend w deadline ids s).2 := by
  induction ids with
  | nil => exact fun hs ↦ .refl hs
  | cons id ids ih =>
    intro s hs
    rw [Script.extend, renewed]
    rcases hfence : fence s w id with r | h
    · rw [List.filter_cons_of_neg (by simp [hfence, Except.isOk, Except.toBool])]
      exact ih hs
    · obtain ⟨e, he, rfl, hact, hw⟩ := fence_eq_ok.1 hfence
      have hmove := moves_renew hs he hact deadline
      have hrest := ih hmove.located
      rw [renewed_renew he] at hrest
      rw [hw] at hmove
      rw [List.filter_cons_of_pos (by simp [hfence, Except.isOk, Except.toBool])]
      exact hmove.steps hrest

theorem mem_dueMembers {set : ZSet} {limit : ℤ} (hid : id ∈ dueMembers set now limit) :
    ∃ t, set.lookup id = some t ∧ t ≤ now := by
  obtain ⟨t, ht, hle, -⟩ := mem_keysOf_due.1 (List.mem_of_mem_take hid)
  exact ⟨t, ht, hle⟩

theorem dueMembers_nodup (set : ZSet) (now limit : ℤ) : (dueMembers set now limit).Nodup :=
  (keysOf_due_nodup _ _ _).sublist (List.take_sublist _ _)

/-- The members `reap.lua` fetched are still there when it comes to them, each has its hash, and
each is counted once. -/
theorem steps_reapLoop {ids : List String} : ∀ {n : ℕ × ℕ} {s : Store}, Located s → ids.Nodup →
    (∀ i ∈ ids, ∃ t, (s.active q).lookup i = some t ∧ t ≤ now) →
    (reapLoop now q ids n s).1.1 + (reapLoop now q ids n s).1.2 = n.1 + n.2 + ids.length ∧
      Steps s (ids.map fun i ↦ (i, .reaped now)) (reapLoop now q ids n s).2 := by
  induction ids with
  | nil => exact fun hs _ _ ↦ ⟨rfl, .refl hs⟩
  | cons id ids ih =>
    intro n s hs hnodup hdue
    obtain ⟨t, ht, hle⟩ := hdue id List.mem_cons_self
    obtain ⟨e, he, hact, rfl, rfl⟩ := hs.of_lease ht
    have hmove := moves_recover hs he hact hle
    rw [List.nodup_cons] at hnodup
    rw [reapLoop, if_pos (by rw [ht]; rfl)]
    simp only [show (s.zremActive e.hash.queue id).job id = some e from he]
    obtain ⟨hcount, hsteps⟩ := ih
      (n := if spent e.hash.attempt e.hash.maxAttempts then (n.1, n.2 + 1) else (n.1 + 1, n.2))
      hmove.located hnodup.2 fun i hi ↦ by
        have hne : i ≠ id := fun heq ↦ hnodup.1 (heq ▸ hi)
        rw [hmove.frame.active _ i hne]
        exact hdue i (List.mem_cons_of_mem _ hi)
    refine ⟨hcount.trans ?_, hmove.steps hsteps⟩
    rw [List.length_cons]
    split_ifs <;> dsimp only <;> omega

/-- The same for one of the two rounds of `promote.lua`. -/
theorem steps_promoteLoop {set : WaitSet} {ids : List String} : ∀ {n : ℕ} {s : Store}, Located s →
    ids.Nodup → (∀ i ∈ ids, ∃ t, (waitSet s set).lookup i = some t ∧ t ≤ now) →
    (promoteLoop set ids n s).1 = n + ids.length ∧
      Steps s (ids.map fun i ↦ (i, .promoted now)) (promoteLoop set ids n s).2 ∧
      ∀ set', set' ≠ set → waitSet (promoteLoop set ids n s).2 set' = waitSet s set' := by
  induction ids with
  | nil => exact fun hs _ _ ↦ ⟨rfl, .refl hs, fun _ _ ↦ rfl⟩
  | cons id ids ih =>
    intro n s hs hnodup hdue
    obtain ⟨t, ht, hle⟩ := hdue id List.mem_cons_self
    obtain ⟨e, he, -⟩ := hs.of_waitSet ht
    have hmove := moves_promote hs ht he hle
    rw [List.nodup_cons] at hnodup
    obtain ⟨hn, hsteps, hother⟩ := ih (n := n + 1) hmove.located hnodup.2 fun i hi ↦ by
      have hne : i ≠ id := fun heq ↦ hnodup.1 (heq ▸ hi)
      rw [hmove.frame.wait _ i hne]
      exact hdue i (List.mem_cons_of_mem _ hi)
    rw [promoteLoop, if_pos (by rw [ht]; rfl)]
    simp only [zremWait_job, he]
    refine ⟨by rw [hn, List.length_cons]; omega, hmove.steps hsteps, fun set' hne ↦ ?_⟩
    rw [hother set' hne]
    cases set <;> cases set' <;> first | rfl | exact absurd rfl hne

theorem Steps.trans {evs' : List (String × Event)} (h : Steps s evs s') (h' : Steps s' evs' s'') :
    Steps s (evs ++ evs') s'' := by
  refine ⟨h'.located, h.path.append h'.path, fun x hx ↦ ?_⟩
  rw [h'.frame x fun ev hev ↦ hx ev (List.mem_append_right _ hev),
    h.frame x fun ev hev ↦ hx ev (List.mem_append_left _ hev)]

/-! ### The operations -/

/-- What changes is not about jobs. -/
structure SameJobs (s s' : Store) : Prop where
  job : s'.job = s.job
  ready : s'.ready = s.ready
  active : s'.active = s.active
  delayed : s'.delayed = s.delayed
  retry : s'.retry = s.retry
  dead : s'.dead = s.dead

theorem SameJobs.steps (hsame : SameJobs s s') (hs : Located s) : Steps s [] s' := by
  cases s
  cases s'
  obtain ⟨rfl, rfl, rfl, rfl, rfl, rfl⟩ := hsame
  refine ⟨⟨hs.keyed, hs.known, fun id p ↦ ?_, hs.owned, hs.leased, hs.expiring⟩,
    .quiet fun id ↦ .refl _, fun _ _ ↦ rfl⟩
  rcases p with q | q | ⟨_ | _⟩ | _
  · exact hs.exact id (.ready q)
  · exact hs.exact id (.active q)
  · exact hs.exact id (.wait .delayed)
  · exact hs.exact id (.wait .retry)
  · exact hs.exact id .dead

end Store

open Store

variable {s : Store} {now : ℤ} {q w : String}

/-- `Enqueue` refuses the job and writes nothing, or stores it under the ID it got. -/
theorem enqueue_cases (s : Store) (now : ℤ) (newID : String) (wall : Time) (o : Option Job) :
    (∃ err, enqueue s now newID wall o = (.error err, s)) ∨
    ∃ j st s₁, o = some j ∧ SameJobs s s₁ ∧ enqueue s now newID wall o =
      (.ok { j.assigned newID with state := st }, place s₁ (jobHash now (j.assigned newID))) := by
  rcases o with _ | j
  · exact .inl ⟨_, rfl⟩
  · rcases enqueue_outcome s now newID wall j with
      ⟨-, reason, heq⟩ | ⟨-, ⟨u, -, -, heq⟩ | ⟨-, st, heq⟩⟩
    · exact .inl ⟨_, heq⟩
    · exact .inl ⟨_, heq⟩
    · have hsame : SameJobs s (s.takeKey now (j.assigned newID)) :=
        ⟨rfl, rfl, rfl, rfl, rfl, rfl⟩
      exact .inr ⟨j, st, _, rfl, hsame, heq⟩

/-- A job that is enqueued is scheduled or pending. -/
theorem jobHash_state (now : ℤ) (j : Job) :
    (jobHash now j).state = .scheduled ∨ (jobHash now j).state = .pending := by
  simp only [jobHash, newHash]
  split_ifs
  · exact .inl rfl
  · exact .inr rfl

/-- An operation is refused and leaves the store as it was, or it performs the events its result
says. -/
def Performs {ε α : Type} (s : Store) (r : Except ε α × Store)
    (evs : α → List (String × Event)) : Prop :=
  (∃ err, r = (.error err, s)) ∨ ∃ a, r.1 = .ok a ∧ Steps s (evs a) r.2

/-- Reading a script's status code as an error changes nothing. -/
theorem Performs.fenceError {r : Except Refusal Unit × Store} {evs : Unit → List (String × Event)}
    (h : Performs s r evs) (i w : String) :
    Performs s (r.map (Redis.fenceError i w) id) evs := by
  rcases h with ⟨err, rfl⟩ | ⟨a, ha, hsteps⟩
  · rcases err with _ | ⟨state, owner⟩
    · exact .inl ⟨_, rfl⟩
    · exact .inl ⟨_, rfl⟩
  · exact .inr ⟨(), by rw [Prod.map_fst, ha]; rfl, hsteps⟩

theorem performs_enqueue (hs : Located s) (now : ℤ) (wall : Time) {newID : String}
    {o : Option Job} (hnew : ∀ j, o = some j → s.job (j.assigned newID).id = none) :
    Performs s (enqueue s now newID wall o)
      fun j ↦ [(j.id, .enqueued (newLife (jobHash now j)))] := by
  rcases enqueue_cases s now newID wall o with h | ⟨j, st, s₁, rfl, hsame, heq⟩
  · exact .inl h
  · have hsteps := hsame.steps hs
    have hid : s₁.job (jobHash now (j.assigned newID)).id = none := by
      rw [hsame.job]
      exact hnew j rfl
    rw [heq]
    exact .inr ⟨_, rfl,
      hsteps.trans (moves_place hsteps.located hid rfl (jobHash_state now _)).single⟩

/-- **What `Dequeue` does**: it is refused, it finds every ready list empty, or it claims the head
of the first one that is not. -/
theorem claimNext_cases (hs : Located s) (now : ℤ) (o : ClaimOpts) :
    (∃ err, claimNext s now o = (.error err, s)) ∨
    o.workerID ≠ "" ∧ ∃ q ∈ o.queues, ∃ id rest e, s.ready q = id :: rest ∧ s.job id = some e ∧
      claimNext s now o =
        (.ok (claimed now o.workerID (milliseconds o.visibilityTimeout) e.hash),
          claim (s.lpop q) now o.workerID (milliseconds o.visibilityTimeout) q id e.hash) := by
  rcases claimNext_script s now o with hrefused | ⟨hw, -, hscript⟩
  · exact .inl hrefused
  · rcases dequeue_cases hs now o.workerID (milliseconds o.visibilityTimeout) o.queues with
      ⟨heq, -⟩ | ⟨q, hmem, id, rest, e, hq, he, heq⟩
    · exact .inl ⟨_, by rw [hscript, heq]; rfl⟩
    · exact .inr ⟨hw, q, hmem, id, rest, e, hq, he, by rw [hscript, heq]; rfl⟩

theorem performs_claimNext (hs : Located s) (now : ℤ) (o : ClaimOpts) :
    Performs s (claimNext s now o) fun h ↦ [(h.id, .claimed h.owner h.deadline)] := by
  rcases claimNext_cases hs now o with h | ⟨hw, q, -, id, rest, e, hq, he, heq⟩
  · exact .inl h
  · have hmove : Moves s id (.claimed _ (now + milliseconds o.visibilityTimeout)) _ :=
      moves_claim hs hq he hw
    rw [← hs.keyed id e he] at hmove
    rw [heq, ← hs.keyed id e he]
    exact .inr ⟨_, rfl, hmove.single⟩

theorem performs_ack (hs : Located s) (now ttl : ℤ) (w i : String) :
    Performs s (Script.ack s now w i ttl) fun _ ↦ [(i, .acked w)] := by
  rw [Script.ack]
  rcases hfence : fence s w i with r | h
  · exact .inl ⟨_, rfl⟩
  · obtain ⟨e, he, rfl, hact, rfl⟩ := fence_eq_ok.1 hfence
    obtain rfl := hs.keyed i e he
    dsimp only
    split_ifs
    · exact .inr ⟨(), rfl, (moves_complete hs he hact _ _).single⟩
    · exact .inr ⟨(), rfl, (moves_delete hs he hact _).single⟩

theorem performs_nack (hs : Located s) (now : ℤ) (w i : String) (r : ℤ) (reason : String) :
    Performs s (Script.nack s now w i r reason) fun _ ↦ [(i, .nacked w r)] := by
  rw [Script.nack]
  rcases hfence : fence s w i with r' | h
  · exact .inl ⟨_, rfl⟩
  · obtain ⟨e, he, rfl, hact, rfl⟩ := fence_eq_ok.1 hfence
    obtain rfl := hs.keyed i e he
    rcases hspent : spent e.hash.attempt e.hash.maxAttempts with _ | _
    · simp only [hspent, Bool.false_eq_true, if_false]
      exact .inr ⟨(), rfl, (moves_retry hs he hact hspent _ reason).single⟩
    · simp only [hspent, if_true]
      refine .inr ⟨(), rfl, Moves.single (moves_dead hs he hact ?_ ?_)⟩
      · rfl
      · simp [life_eq_some he, phase, hact, Life.advance, Life.fallTo, hspent]

theorem performs_kill (hs : Located s) (now : ℤ) (w i reason : String) :
    Performs s (Script.kill s now w i reason) fun _ ↦ [(i, .killed w)] := by
  rw [Script.kill]
  rcases hfence : fence s w i with r | h
  · exact .inl ⟨_, rfl⟩
  · obtain ⟨e, he, rfl, hact, rfl⟩ := fence_eq_ok.1 hfence
    obtain rfl := hs.keyed i e he
    refine .inr ⟨(), rfl, Moves.single (moves_dead hs he hact ?_ ?_)⟩
    · rfl
    · simp [life_eq_some he, phase, hact, Life.advance]

theorem performs_extend (hs : Located s) (now : ℤ) (w : String) (ids : List String)
    (vt : Duration) : Performs s (extend s now w ids vt) fun _ ↦
      (renewed s w ids).map fun i ↦ (i, .extended w (now + milliseconds vt)) := by
  rw [extend]
  split_ifs with hvt hids
  · exact .inl ⟨_, rfl⟩
  · subst hids
    exact .inr ⟨[], rfl, .refl hs⟩
  · exact .inr ⟨_, rfl, steps_extend hs⟩

/-- A number that a `Reap` or a `Promote` returns: of the jobs it acted on, and none of an error. -/
def counted : Except Err ℕ → ℕ
  | .ok n => n
  | .error _ => 0

/-- A round of `Reap` ends the leases it found expired, and returns how many they are. -/
theorem steps_reapQueue (hs : Located s) (now : ℤ) (q : String) (limit : ℤ) :
    counted (reapQueue s now q limit).1 = (reaped s now q limit).length ∧
      Steps s ((reaped s now q limit).map fun i ↦ (i, .reaped now))
        (reapQueue s now q limit).2 := by
  rw [reapQueue, reaped]
  split_ifs
  · exact ⟨rfl, .refl hs⟩
  · exact ⟨rfl, .refl hs⟩
  · obtain ⟨hcount, hsteps⟩ := steps_reapLoop (n := (0, 0)) hs (dueMembers_nodup _ _ _)
      fun i hi ↦ mem_dueMembers hi
    rw [add_zero, zero_add] at hcount
    exact ⟨hcount, hsteps⟩

/-- One round of `promote.lua` promotes the due members of its set, up to what is left of the
limit. -/
theorem steps_promoteSet (hs : Located s) (now limit : ℤ) (set : WaitSet) (n : ℕ) :
    (promoteSet now limit set (n, s)).1 =
        n + (dueMembers (waitSet s set) now (limit - n)).length ∧
      Steps s ((dueMembers (waitSet s set) now (limit - n)).map fun i ↦ (i, .promoted now))
        (promoteSet now limit set (n, s)).2 ∧
      ∀ set', set' ≠ set → waitSet (promoteSet now limit set (n, s)).2 set' = waitSet s set' := by
  rw [promoteSet]
  split_ifs with hlim
  · exact steps_promoteLoop hs (dueMembers_nodup _ _ _) fun i hi ↦ mem_dueMembers hi
  · have hnil : dueMembers (waitSet s set) now (limit - n) = [] := by
      rw [dueMembers, Int.toNat_of_nonpos (by omega), List.take_zero]
    rw [hnil]
    exact ⟨rfl, .refl hs, fun _ _ ↦ rfl⟩

/-- `Promote` promotes the due jobs, and returns how many they are. -/
theorem steps_promote (hs : Located s) (now limit : ℤ) :
    counted (promote s now limit).1 = (promoted s now limit).length ∧
      Steps s ((promoted s now limit).map fun i ↦ (i, .promoted now)) (promote s now limit).2 := by
  rw [promote, promoted]
  split_ifs with hlim hreads
  · exact ⟨rfl, .refl hs⟩
  · exact ⟨rfl, .refl hs⟩
  · obtain ⟨hn, hsteps, hother⟩ := steps_promoteSet hs now limit .delayed 0
    rw [Script.promote]
    rcases hr : promoteSet now limit .delayed (0, s) with ⟨n, s₁⟩
    rw [hr] at hn hsteps hother
    simp only [Nat.cast_zero, sub_zero, zero_add] at hn hsteps
    obtain ⟨hcount, hsteps', -⟩ := steps_promoteSet hsteps.located now limit .retry n
    rw [hother .retry (by decide), hn] at hsteps' hcount
    rw [List.map_append, List.length_append, hn]
    exact ⟨hcount, hsteps.trans hsteps'⟩

/-- What an operation has to respect for the jobs to stay in place: the ID it enqueues is new. -/
def Safe (s : Store) : Op → Prop
  | .enqueue newID _ (some j) => s.job (j.assigned newID).id = none
  | _ => True

/-- **Every operation is a sequence of moves**, those `eventsOf` reads off it. -/
theorem steps_run (hs : Located s) (ttl : Duration) (now : ℤ) {op : Op} (hsafe : Safe s op) :
    Steps s (eventsOf ttl s now op) (run ttl s now op).2 := by
  cases op with
  | enqueue newID wall o =>
    have hnew : ∀ j, o = some j → s.job (j.assigned newID).id = none := by
      rintro j rfl
      exact hsafe
    rcases performs_enqueue hs now wall hnew with ⟨err, herr⟩ | ⟨a, ha, hsteps⟩
    · simpa [eventsOf, run, herr, Reply.of] using Steps.refl hs
    · simpa [eventsOf, run, ha, Reply.of] using hsteps
  | dequeue o =>
    rcases performs_claimNext hs now o with ⟨err, herr⟩ | ⟨h, hh, hsteps⟩
    · simpa [eventsOf, run, dequeue, herr] using Steps.refl hs
    · simpa [eventsOf, run, dequeue, hh] using hsteps
  | ack w i =>
    have hp : Performs s (ack s now ttl w i) _ := (performs_ack hs now _ w i).fenceError i w
    rcases hp with ⟨err, herr⟩ | ⟨a, ha, hsteps⟩
    · simpa [eventsOf, run, herr, Reply.of] using Steps.refl hs
    · simpa [eventsOf, run, ha, Reply.of] using hsteps
  | nack w i r reason =>
    have hp : Performs s (nack s now w i r reason) _ :=
      (performs_nack hs now w i _ reason).fenceError i w
    rcases hp with ⟨err, herr⟩ | ⟨a, ha, hsteps⟩
    · simpa [eventsOf, run, herr, Reply.of] using Steps.refl hs
    · simpa [eventsOf, run, ha, Reply.of] using hsteps
  | kill w i reason =>
    have hp : Performs s (kill s now w i reason) _ :=
      (performs_kill hs now w i reason).fenceError i w
    rcases hp with ⟨err, herr⟩ | ⟨a, ha, hsteps⟩
    · simpa [eventsOf, run, herr, Reply.of] using Steps.refl hs
    · simpa [eventsOf, run, ha, Reply.of] using hsteps
  | extend w ids vt =>
    rcases performs_extend hs now w ids vt with ⟨err, herr⟩ | ⟨a, ha, hsteps⟩
    · simpa [eventsOf, run, herr, Reply.of] using Steps.refl hs
    · simpa [eventsOf, run, ha, Reply.of] using hsteps
  | reap q limit => exact (steps_reapQueue hs now q limit).2
  | promote limit => exact (steps_promote hs now limit).2
  | scheduleCronIfAbsent i t =>
    obtain ⟨cron, heq⟩ := scheduleCronIfAbsent_cron s i t
    refine SameJobs.steps ?_ hs
    simp only [run, Prod.map_snd, heq]
    exact ⟨rfl, rfl, rfl, rfl, rfl, rfl⟩
  | dueCron limit => exact .refl hs
  | claimCron i t t' =>
    obtain ⟨cron, heq⟩ := claimCron_cron s i t t'
    refine SameJobs.steps ?_ hs
    simp only [run, Prod.map_snd, heq]
    exact ⟨rfl, rfl, rfl, rfl, rfl, rfl⟩
  | removeCron i => exact SameJobs.steps ⟨rfl, rfl, rfl, rfl, rfl, rfl⟩ hs

/-! ### Runs -/

section Runs

variable (cfg : Config)

/-- What a run may do next, as far as the places of jobs are concerned: a job that is enqueued gets
an ID under which none was stored before, as it does when `Enqueue` is left to pick one. -/
def Fresh (h : List (Turn Store Call)) (_ : Store) (c : Call) : Prop :=
  ∀ newID wall j, c.op = .enqueue newID wall (some j) → ∀ t ∈ h, ∀ j',
    reply cfg t = .stored j' → j'.id ≠ (j.assigned newID).id

/-- What a run may do next if also the server time does not go back. -/
structure Admissible (h : List (Turn Store Call)) (_ : Store) (c : Call) : Prop where
  clock : ∀ t ∈ h, t.input.now ≤ c.now
  fresh : ∀ newID wall j, c.op = .enqueue newID wall (some j) → ∀ t ∈ h, ∀ j',
    reply cfg t = .stored j' → j'.id ≠ (j.assigned newID).id

variable {cfg} {h : List (Turn Store Call)} {c : Call} {id : String}

/-- What `Enqueue` returns is the job it was given, under the ID it got. -/
theorem stored_of_run {ttl : Duration} {newID : String} {wall : Time} {o : Option Job} {j' : Job}
    (hreply : (run ttl s now (.enqueue newID wall o)).1 = .stored j') :
    ∃ j st s₁, o = some j ∧ j' = { j.assigned newID with state := st } ∧ SameJobs s s₁ ∧
      (run ttl s now (.enqueue newID wall o)).2 = place s₁ (jobHash now (j.assigned newID)) := by
  simp only [run, Prod.map_fst, Prod.map_snd] at hreply ⊢
  rcases enqueue_cases s now newID wall o with ⟨err, heq⟩ | ⟨j, st, s₁, rfl, hsame, heq⟩
  · simp [heq, Reply.of] at hreply
  · simp only [heq, Reply.of, Reply.stored.injEq] at hreply
    exact ⟨j, st, s₁, rfl, hreply.symm, hsame, by rw [heq]; rfl⟩

theorem located_empty : Located empty := by
  refine ⟨by simp [empty], by simp [empty], fun id p ↦ ?_, by simp [empty], by simp [empty],
    by simp [empty]⟩
  rcases p with q | q | ⟨_ | _⟩ | _ <;> simp [mentions, home, empty, waitSet]

theorem Admissible.run (hrun : (machine cfg).Run (Admissible cfg) h s) :
    (machine cfg).Run (Fresh cfg) h s := hrun.mono fun _ _ _ _ hok ↦ hok.fresh

theorem Fresh.not_enqueued (hok : Fresh cfg h s c) {newID : String} {wall : Time}
    {j : Job} (hop : c.op = .enqueue newID wall (some j)) (l : Life) :
    ((j.assigned newID).id, .enqueued l) ∉ history (events cfg) h := by
  intro hmem
  obtain ⟨t, ht, hmem⟩ := mem_history.1 hmem
  obtain ⟨_, _, _, j', -, hreply, hid, -⟩ := mem_events_iff.1 hmem
  exact hok newID wall j hop t ht j' hreply hid

/-- An admitted call is safe: the ID of a new job is new to the store because it is new to the
run. -/
theorem Fresh.safe (hok : Fresh cfg h s c)
    (hseen : ∀ id, s.life id ≠ none → ∃ l, (id, .enqueued l) ∈ history (events cfg) h) :
    Safe (seen cfg s c) c.op := by
  rcases hop : c.op with ⟨newID, wall, _ | j⟩ | _
  case enqueue.some =>
    show (seen cfg s c).job (j.assigned newID).id = none
    rcases he : s.job (j.assigned newID).id with _ | e
    · rw [seen, live]
      simp [he]
    · obtain ⟨l, hl⟩ := hseen (j.assigned newID).id (by simp [life_eq_some he])
      exact absurd hl (hok.not_enqueued hop l)
  all_goals trivial

/-- **Every call is a sequence of moves**, from the store its script sees. -/
theorem steps_exec (hs : Located s) (hsafe : Safe (seen cfg s c) c.op) :
    Steps (seen cfg s c) (events cfg s c) (exec cfg s c).2 :=
  steps_run (hs.live cfg.visible c.now).1 cfg.completedTTL c.now hsafe

/-- **Jobs stay in place, and live as the automaton says**, in every run. -/
theorem lives_of_fresh (hrun : (machine cfg).Run (Fresh cfg) h s) :
    Located s ∧ ∃ a, Follows (Life.advance spent) (fun _ ↦ none) (history (events cfg) h) a ∧
      ∀ id, Life.Shown (a id) (s.life id) := by
  refine follows_of_run (fun id ↦ life_eq_none rfl) located_empty ?_ ?_ hrun
  · intro h s c hloc hseen hok
    have hsteps := steps_exec hloc (hok.safe hseen)
    exact ⟨hsteps.located, .forget (hloc.live cfg.visible c.now).2 hsteps.path⟩
  · intro h s c hok id l hmem
    obtain ⟨newID, wall, o, j', hop, hreply, rfl, rfl⟩ := mem_events_iff.1 hmem
    rw [exec, hop] at hreply
    obtain ⟨j, st, -, rfl, rfl, -⟩ := stored_of_run hreply
    exact ⟨by simp [events, eventsOf, hop, hreply], fun l' ↦ hok.not_enqueued hop l'⟩

/-- What a run may do next is safe. -/
theorem Fresh.safe_of_run (hok : Fresh cfg h s c) (hrun : (machine cfg).Run (Fresh cfg) h s) :
    Safe (seen cfg s c) c.op := by
  obtain ⟨-, a, hfollows, hshown⟩ := lives_of_fresh hrun
  exact hok.safe fun id hid ↦ enqueued_of_shown hfollows (hshown id) hid

theorem lives_of_run (hrun : (machine cfg).Run (Admissible cfg) h s) :
    Located s ∧ ∃ a, Follows (Life.advance spent) (fun _ ↦ none) (history (events cfg) h) a ∧
      ∀ id, Life.Shown (a id) (s.life id) := lives_of_fresh (Admissible.run hrun)

theorem located_of_run (hrun : (machine cfg).Run (Admissible cfg) h s) : Located s :=
  (lives_of_run hrun).1

theorem Admissible.safe_of_run (hok : Admissible cfg h s c)
    (hrun : (machine cfg).Run (Admissible cfg) h s) : Safe (seen cfg s c) c.op :=
  Fresh.safe_of_run hok.fresh (Admissible.run hrun)

/-- Every turn of a run is a sequence of moves. -/
theorem steps_of_run {t : Turn Store Call} (hrun : (machine cfg).Run (Admissible cfg) (t :: h) s) :
    Steps (seen cfg t.before t.input) (events cfg t.before t.input) ((machine cfg).after t) := by
  obtain ⟨hprev, hok, -⟩ := hrun.of_cons
  exact steps_exec (located_of_run hprev) (hok.safe_of_run hprev)

/-! ### The jobs of a run -/

variable (cfg)

/-- The turn was an `Enqueue` that stored a job under this ID. -/
def Stores (t : Turn Store Call) (id : String) : Prop :=
  ∃ newID wall o j, t.input.op = .enqueue newID wall o ∧ reply cfg t = .stored j ∧ j.id = id

/-- The turn was an `Ack` of this ID that succeeded. -/
def Acks (t : Turn Store Call) (id : String) : Prop :=
  ∃ w, t.input.op = .ack w id ∧ reply cfg t = .done

/-- An `Enqueue` stored a job under this ID. -/
def Enqueued (h : List (Turn Store Call)) (id : String) : Prop := ∃ t ∈ h, Stores cfg t id

/-- An `Ack` of this ID succeeded. -/
def Acked (h : List (Turn Store Call)) (id : String) : Prop := ∃ t ∈ h, Acks cfg t id

variable {cfg}

theorem enqueued_iff : (∃ l, (id, .enqueued l) ∈ history (events cfg) h) ↔ Enqueued cfg h id := by
  constructor
  · rintro ⟨l, hmem⟩
    obtain ⟨t, ht, hmem⟩ := mem_history.1 hmem
    obtain ⟨newID, wall, o, j, hop, hreply, hid, -⟩ := mem_events_iff.1 hmem
    exact ⟨t, ht, newID, wall, o, j, hop, hreply, hid⟩
  · rintro ⟨t, ht, newID, wall, o, j, hop, hreply, hid⟩
    exact ⟨_, mem_history.2 ⟨t, ht, mem_events_iff.2 ⟨newID, wall, o, j, hop, hreply, hid, rfl⟩⟩⟩

theorem acked_iff : (∃ w, (id, .acked w) ∈ history (events cfg) h) ↔ Acked cfg h id := by
  constructor
  · rintro ⟨w, hmem⟩
    obtain ⟨t, ht, hmem⟩ := mem_history.1 hmem
    obtain ⟨hop, hreply⟩ := mem_events_iff.1 hmem
    exact ⟨t, ht, w, hop, hreply⟩
  · rintro ⟨t, ht, w, hop, hreply⟩
    exact ⟨w, mem_history.2 ⟨t, ht, mem_events_iff.2 ⟨hop, hreply⟩⟩⟩

/-- An ID is in a place exactly if its job is not done. -/
theorem home_isSome_iff (hloc : Located s) {o : Option Life} (hshown : Life.Shown o (s.life id)) :
    (s.home id).isSome ↔ ∃ l, o = some l ∧ l.phase ≠ .done := by
  rcases he : s.job id with _ | e
  · rw [life_eq_none he] at hshown
    rcases hshown with rfl | ⟨-, l, rfl, hdone⟩
    · simp [home, he]
    · simp [home, he, hdone]
  · rw [life_eq_some he] at hshown
    have hknown := hloc.known id e he
    rw [hshown.eq_of_some]
    cases hstate : e.hash.state <;> simp_all [home, placeOf, phase]

/-- **The jobs in a place** are those enqueued and not acked since. -/
theorem placed_iff (hrun : (machine cfg).Run (Fresh cfg) h s) (id : String) :
    (s.home id).isSome ↔ Enqueued cfg h id ∧ ¬ Acked cfg h id := by
  obtain ⟨hloc, a, hfollows, hshown⟩ := lives_of_fresh hrun
  rw [home_isSome_iff hloc (hshown id), Life.alive_iff (hfollows id)]
  simp only [mem_eventsAt, enqueued_iff, ← acked_iff]
  refine and_congr_right fun _ ↦ ⟨fun hend ↦ ?_, fun hack e he ↦ ?_⟩
  · rintro ⟨w, hw⟩
    simpa [Event.isEnd] using hend _ hw
  · cases e with
    | acked w => exact absurd ⟨w, he⟩ hack
    | purged =>
      obtain ⟨t, -, hdid⟩ := mem_history.1 he
      exact (mem_events_iff.1 hdid).elim
    | _ => rfl

/-- **No job in Redis is lost or duplicated.** In every run, a job that was enqueued and not acked
has its hash, which does not expire, and is mentioned once by the place its state names and by no
other: the ready list or the active set of its own queue, there with its deadline as the score, or
the delayed, retry or dead set. Every other ID is mentioned nowhere, its hash retained or not. A job
has an owner exactly while it is active. -/
theorem no_job_lost_or_duplicated_in_redis (hrun : (machine cfg).Run (Admissible cfg) h s)
    (id : String) :
    (Enqueued cfg h id → ¬ Acked cfg h id → ∃ e, s.job id = some e ∧ e.expireAt = none ∧
      (placeOf e.hash).isSome ∧ (∀ p, s.mentions p id = if placeOf e.hash = some p then 1 else 0) ∧
      (e.hash.state = .active → (s.active e.hash.queue).lookup id = some e.hash.deadline)) ∧
    (¬ (Enqueued cfg h id ∧ ¬ Acked cfg h id) → ∀ p, s.mentions p id = 0) ∧
    (∀ e, s.job id = some e → (e.hash.owner ≠ "" ↔ e.hash.state = .active)) := by
  have hloc := located_of_run hrun
  have hplaced := placed_iff (Admissible.run hrun) id
  refine ⟨fun henq hack ↦ ?_, fun hnot ↦ ?_, hloc.owned id⟩
  · obtain ⟨p, hp⟩ := Option.isSome_iff_exists.1 (hplaced.2 ⟨henq, hack⟩)
    obtain ⟨e, he, hplace⟩ := Option.bind_eq_some_iff.1 hp
    have hstate : e.hash.state ≠ .completed := fun hdone ↦ by simp [placeOf, hdone] at hplace
    refine ⟨e, he, hloc.expireAt_eq he hstate, by simp [hplace], fun p' ↦ ?_, hloc.leased id e he⟩
    rw [hloc.exact id p', home, he, Option.bind_some]
  · exact hloc.exact.eq_zero_of_none (Option.not_isSome_iff_eq_none.1 (mt hplaced.1 hnot))

/-- A job is enqueued and claimed: the run is admissible, and its job is in the active set of its
queue alone. -/
theorem no_job_lost_or_duplicated_in_redis_claimed :
    ∃ h s, (machine .default).Run (Admissible .default) h s ∧ Enqueued .default h "a" ∧
      ¬ Acked .default h "a" ∧ s.mentions (.active "q") "a" = 1 ∧
      s.mentions (.ready "q") "a" = 0 := by
  have hrun : (machine .default).Run (Admissible .default) _ _ :=
    .step ⟨1, .dequeue ⟨"w", ["q"], millisecond⟩⟩
      (.step ⟨0, .enqueue "a" 0 (some (.plain "q" "t" 1))⟩ .start ⟨by simp, by simp⟩)
      ⟨by simp, by simp⟩
  have henq := (placed_iff (Admissible.run hrun) "a").1 (by decide)
  obtain ⟨e, he, -, -, hmentions, -⟩ :=
    (no_job_lost_or_duplicated_in_redis hrun "a").1 henq.1 henq.2
  obtain rfl := Option.some.inj he
  exact ⟨_, _, hrun, henq.1, henq.2, hmentions (.active "q"), hmentions (.ready "q")⟩

end Runs

end TaskQueue.Redis
