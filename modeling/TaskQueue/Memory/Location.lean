import TaskQueue.Memory.Steps

/-!
# Every job of the in-memory broker is in exactly one place

The loops of the broker are sequences of the moves of `TaskQueue.Memory.Steps`, and so is every
call: `steps_exec`. Over runs that gives the two things this module is for.

* `located_of_run`: the location invariant in every reachable state.
* `lives_of_run`: every ID's history is accepted by the lifecycle automaton and ends in the life the
  broker shows. Later modules read leases and counters off it without looking at the broker again.

A loop collects its candidates before it starts, so its lemma carries what made them candidates as a
hypothesis about the remaining ones, and the **frame** of each move hands it on. That argument needs
every candidate to be named once, which the sorted due lists give and `RetryDead` does not: with a
list of IDs that repeats one, it puts a job on its ready list twice. Runs are therefore restricted
to replays whose IDs are distinct (`Admissible`), a replay of everything among them.
-/

namespace TaskQueue.Memory

open Keyed Table

namespace Broker

variable {b b' b'' : Broker} {now : Time} {id q w : String} {j : Job}
  {e : Event} {evs : List (String × Event)}

/-- A sequence of moves that leaves every job in its place. -/
structure Steps (b : Broker) (evs : List (String × Event)) (b' : Broker) : Prop where
  located : Located b'
  path : Path spent life b evs b'
  /-- A job that no move is about keeps its whole envelope. -/
  frame : ∀ x, (∀ e, (x, e) ∉ evs) → b'.jobs.lookup x = b.jobs.lookup x

theorem Steps.refl (h : Located b) : Steps b [] b :=
  ⟨h, .nil b, fun _ _ ↦ rfl⟩

theorem Moves.steps (m : Moves b id e b') (s : Steps b' evs b'') :
    Steps b ((id, e) :: evs) b'' := by
  obtain ⟨o, he, hshown⟩ := m.life
  refine ⟨s.located, .move (fun x hx ↦ m.frame.life hx) he hshown s.path, fun x hx ↦ ?_⟩
  have hne : x ≠ id := fun heq ↦ hx e (heq ▸ List.mem_cons_self)
  rw [s.frame x fun e' he' ↦ hx e' (List.mem_cons_of_mem _ he'), m.frame.jobs x hne]

theorem Moves.single (m : Moves b id e b') : Steps b [(id, e)] b' := m.steps (.refl m.located)

/-! ### The loops -/

/-- A lease is on an active job and ends at its deadline. -/
theorem Located.of_lease (h : Located b) {t : Time} (ht : b.active.lookup id = some t) :
    ∃ j, b.jobs.lookup id = some j ∧ j.state = .active ∧ j.deadline = t := by
  have hhome : b.home id = some .active := (h.counts id).2.1.1 (by rw [ht]; rfl)
  obtain ⟨j, hj, hplace⟩ := Option.bind_eq_some_iff.1 hhome
  have hact : j.state = .active := place_eq_some_iff.1 hplace
  exact ⟨j, hj, hact, Option.some.inj ((h.leased id j hj hact).symm.trans ht)⟩

/-- The loop of `Reap` acts on its candidates in turn, up to the limit, and counts them. -/
theorem steps_reapLoop {limit : ℤ} {cs : List (Time ×ₗ String)} : ∀ {n : ℕ} {b : Broker},
    Located b → (keysOf cs).Nodup →
    (∀ c ∈ cs, (ofLex c).1 ≤ now ∧ b.active.lookup (ofLex c).2 = some (ofLex c).1) →
    (reapLoop limit cs n b).1 = n + ((keysOf cs).take (limit - n).toNat).length ∧
      Steps b (((keysOf cs).take (limit - n).toNat).map fun i ↦ (i, .reaped now))
        (reapLoop limit cs n b).2 := by
  induction cs with
  | nil =>
    intro n b h _ _
    simpa [reapLoop] using Steps.refl h
  | cons c cs ih =>
    intro n b h hnodup hcs
    rw [reapLoop]
    by_cases hlim : limit ≤ n
    · rw [if_pos hlim, Int.toNat_of_nonpos (by omega)]
      exact ⟨rfl, .refl h⟩
    · obtain ⟨hle, hlease⟩ := hcs c List.mem_cons_self
      obtain ⟨j, hj, hact, hdead⟩ := h.of_lease hlease
      have hmove := moves_recover h hj hact (hdead.trans_le hle)
      have hsucc : (limit - n).toNat = (limit - (n + 1 : ℕ)).toNat + 1 := by omega
      rw [if_neg hlim, hj, keysOf_cons, hsucc, List.take_succ_cons, List.map_cons, List.length_cons]
      rw [keysOf_cons, List.nodup_cons] at hnodup
      obtain ⟨hcount, hsteps⟩ := ih (n := n + 1) hmove.located hnodup.2 fun c' hc' ↦ by
        have hne : (ofLex c').2 ≠ (ofLex c).2 := fun heq ↦
          hnodup.1 (heq ▸ List.mem_map_of_mem hc')
        rw [hmove.frame.active _ hne]
        exact hcs c' (List.mem_cons_of_mem _ hc')
      exact ⟨hcount.trans (by omega), hmove.steps hsteps⟩

/-- A member of a wait set is a stored job. -/
theorem Located.of_waitSet (h : Located b) {set : WaitSet} {t : Time}
    (ht : (b.waitSet set).lookup id = some t) : ∃ j, b.jobs.lookup id = some j := by
  have hsome : ((b.waitSet set).lookup id).isSome := by rw [ht]; rfl
  have hhome : ∃ p, b.home id = some p := by
    cases set with
    | scheduled => exact ⟨_, (h.counts id).2.2.1.1 hsome⟩
    | retry => exact ⟨_, (h.counts id).2.2.2.1.1 hsome⟩
  obtain ⟨p, hp⟩ := hhome
  obtain ⟨j, hj, -⟩ := Option.bind_eq_some_iff.1 hp
  exact ⟨j, hj⟩

/-- It is in no other wait set. -/
theorem Located.other_waitSet (h : Located b) {set set' : WaitSet} {t : Time}
    (ht : (b.waitSet set).lookup id = some t) (hset : set' ≠ set) :
    (b.waitSet set').lookup id = none := by
  have hcounts := h.counts id
  rw [← Option.not_isSome_iff_eq_none]
  intro hsome
  have hin : ((b.waitSet set).lookup id).isSome := by rw [ht]; rfl
  rcases set with - | - <;> rcases set' with - | -
  · exact hset rfl
  · have hhome := hcounts.2.2.2.1.1 hsome
    rw [hcounts.2.2.1.1 hin] at hhome
    cases hhome
  · have hhome := hcounts.2.2.1.1 hsome
    rw [hcounts.2.2.2.1.1 hin] at hhome
    cases hhome
  · exact hset rfl

theorem Frame.waitSet (f : Frame b b' id) (set : WaitSet) {x : String} (hx : x ≠ id) :
    (b'.waitSet set).lookup x = (b.waitSet set).lookup x := by
  cases set with
  | scheduled => exact f.scheduled x hx
  | retry => exact f.retry x hx

/-- The same for the loop of `Promote`. -/
theorem steps_promoteLoop {limit : ℤ} {cs : List ((Time ×ₗ String) × WaitSet)} :
    ∀ {n : ℕ} {b : Broker}, Located b → (cs.map fun c ↦ (ofLex c.1).2).Nodup →
    (∀ c ∈ cs, (ofLex c.1).1 ≤ now ∧
      (b.waitSet c.2).lookup (ofLex c.1).2 = some (ofLex c.1).1) →
    (promoteLoop limit cs n b).1 = n + (cs.take (limit - n).toNat).length ∧
      Steps b (((cs.take (limit - n).toNat).map fun c ↦ (ofLex c.1).2).map
        fun i ↦ (i, .promoted now)) (promoteLoop limit cs n b).2 := by
  induction cs with
  | nil =>
    intro n b h _ _
    simpa [promoteLoop] using Steps.refl h
  | cons c cs ih =>
    intro n b h hnodup hcs
    rw [promoteLoop]
    by_cases hlim : limit ≤ n
    · rw [if_pos hlim, Int.toNat_of_nonpos (by omega)]
      exact ⟨rfl, .refl h⟩
    · obtain ⟨hle, hin⟩ := hcs c List.mem_cons_self
      obtain ⟨j, hj⟩ := h.of_waitSet hin
      have hmove := moves_promote h hj hin hle
      have hsucc : (limit - n).toNat = (limit - (n + 1 : ℕ)).toNat + 1 := by omega
      rw [if_neg hlim, hj, hsucc, List.take_succ_cons, List.map_cons, List.map_cons,
        List.length_cons]
      rw [List.map_cons, List.nodup_cons] at hnodup
      obtain ⟨hcount, hsteps⟩ := ih (n := n + 1) hmove.located hnodup.2 fun c' hc' ↦ by
        have hne : (ofLex c'.1).2 ≠ (ofLex c.1).2 := fun heq ↦
          hnodup.1 (heq ▸ List.mem_map_of_mem hc')
        rw [hmove.frame.waitSet _ hne]
        exact hcs c' (List.mem_cons_of_mem _ hc')
      exact ⟨hcount.trans (by omega), hmove.steps hsteps⟩

/-- A member of the dead-letter list is a stored job. -/
theorem Located.of_mem_dead (h : Located b) (hid : id ∈ b.dead) :
    ∃ j, b.jobs.lookup id = some j := by
  have hhome := h.exact.home_eq (a := id) (p := .dead) (List.count_pos_iff.2 hid).ne'
  obtain ⟨j, hj, -⟩ := Option.bind_eq_some_iff.1 hhome
  exact ⟨j, hj⟩

theorem Frame.mem_dead (f : Frame b b' id) {x : String} (hx : x ≠ id) :
    x ∈ b'.dead ↔ x ∈ b.dead := by
  rw [← List.count_pos_iff, ← List.count_pos_iff, f.dead x hx]

theorem steps_retryLoop {ids : List String} : ∀ {n : ℕ} {b : Broker}, Located b → ids.Nodup →
    (∀ i ∈ ids, i ∈ b.dead) →
    (retryLoop ids n b).1 = n + ids.length ∧
      Steps b (ids.map fun i ↦ (i, .replayed)) (retryLoop ids n b).2 := by
  induction ids with
  | nil => exact fun h _ _ ↦ ⟨rfl, .refl h⟩
  | cons id ids ih =>
    intro n b h hnodup hdead
    have hid := hdead id List.mem_cons_self
    obtain ⟨j, hj⟩ := h.of_mem_dead hid
    have hmove := moves_replay h hj hid
    rw [retryLoop, hj, List.map_cons, List.length_cons]
    rw [List.nodup_cons] at hnodup
    obtain ⟨hcount, hsteps⟩ := ih (n := n + 1) hmove.located hnodup.2 fun i hi ↦ by
      rw [hmove.frame.mem_dead fun heq ↦ hnodup.1 (heq ▸ hi)]
      exact hdead i (List.mem_cons_of_mem _ hi)
    exact ⟨hcount.trans (by omega), hmove.steps hsteps⟩

/-- An ID given to `PurgeDead` twice is skipped the second time, so nothing is asked of the list. -/
theorem steps_purgeLoop {ids : List String} : ∀ {n : ℕ} {b : Broker}, Located b →
    (∀ i ∈ ids, b.jobs.lookup i = none ∨ i ∈ b.dead) →
    (purgeLoop ids n b).1 = n + (purges ids b).length ∧
      Steps b ((purges ids b).map fun i ↦ (i, .purged)) (purgeLoop ids n b).2 := by
  induction ids with
  | nil => exact fun h _ ↦ ⟨rfl, .refl h⟩
  | cons id ids ih =>
    intro n b h hdead
    rw [purgeLoop, purges]
    rcases hj : b.jobs.lookup id with - | j
    · exact ih h fun i hi ↦ hdead i (List.mem_cons_of_mem _ hi)
    · have hid : id ∈ b.dead := by simpa [hj] using hdead id List.mem_cons_self
      have hmove := moves_purge h hj hid
      obtain ⟨hcount, hsteps⟩ := ih (n := n + 1) hmove.located fun i hi ↦ by
        by_cases heq : i = id
        · subst heq
          exact .inl (AList.lookup_erase _ _)
        · rw [hmove.frame.jobs i heq, hmove.frame.mem_dead heq]
          exact hdead i (List.mem_cons_of_mem _ hi)
      exact ⟨hcount.trans (by rw [List.length_cons]; omega), hmove.steps hsteps⟩

/-- The fence lets exactly the holder of the lease through. -/
theorem ownedActive_eq_ok :
    b.ownedActive w id = .ok j ↔ b.jobs.lookup id = some j ∧ j.state = .active ∧ j.owner = w := by
  rw [ownedActive]
  cases hj : b.jobs.lookup id with
  | none => simp
  | some j' =>
    by_cases hfence : j'.state ≠ .active ∨ j'.owner ≠ w
    · simp only [if_pos hfence, Option.some.injEq, reduceCtorEq, false_iff]
      rintro ⟨rfl, hstate, howner⟩
      exact hfence.elim (· hstate) (· howner)
    · simp only [if_neg hfence, Except.ok.injEq, Option.some.injEq]
      rw [not_or, not_not, not_not] at hfence
      constructor
      · rintro rfl
        exact ⟨rfl, hfence⟩
      · exact fun h ↦ h.1

/-- Renewing a lease changes nobody's ownership. -/
theorem isOk_ownedActive_renew (hj : b.jobs.lookup id = some j) (deadline : Time) (w x : String) :
    ((b.renew id j deadline).ownedActive w x).isOk = (b.ownedActive w x).isOk := by
  by_cases hx : x = id
  · subst hx
    simp only [ownedActive, renew, AList.lookup_insert, hj]
    split <;> rfl
  · simp only [ownedActive, renew, AList.lookup_insert_ne hx]

theorem renewed_renew (hj : b.jobs.lookup id = some j) (deadline : Time) (w : String)
    (ids : List String) : (b.renew id j deadline).renewed w ids = b.renewed w ids :=
  List.filter_congr fun x _ ↦ isOk_ownedActive_renew hj deadline w x

theorem steps_extendLoop {deadline : Time} : ∀ (ids : List String) {b : Broker}, Located b →
    Steps b ((b.renewed w ids).map fun i ↦ (i, .extended w deadline))
      (extendLoop w deadline ids b).2
  | [], b, h => .refl h
  | id :: ids, b, h => by
    rw [extendLoop, renewed]
    cases hown : b.ownedActive w id with
    | error e =>
      rw [List.filter_cons_of_neg (by simp [hown, Except.isOk, Except.toBool])]
      exact steps_extendLoop ids h
    | ok j =>
      obtain ⟨hj, hact, hw⟩ := ownedActive_eq_ok.1 hown
      have hmove := moves_renew h hj hact deadline
      have hrest : Steps _ _ (extendLoop w deadline ids _).2 := steps_extendLoop ids hmove.located
      rw [renewed_renew hj] at hrest
      rw [hw] at hmove
      rw [List.filter_cons_of_pos (by simp [hown, Except.isOk, Except.toBool])]
      exact hmove.steps hrest

/-- **What `Dequeue` finds.** Every listed ID has its job, so the walk over the queues stops at the
first ready list that is not empty and claims its head. -/
theorem dequeueFrom_cases (h : Located b) (now : Time) (w : String) (vt : Duration) :
    ∀ qs : List String,
    (dequeueFrom now w vt qs b = (.error .noJob, b) ∧ ∀ q ∈ qs, b.pending q = []) ∨
    ∃ q ∈ qs, ∃ id rest j, b.pending q = id :: rest ∧ b.jobs.lookup id = some j ∧
      dequeueFrom now w vt qs b =
        (.ok (claimedJob now j w vt), (b.pop q).claim now id j w vt)
  | [] => .inl ⟨rfl, by simp⟩
  | q :: qs => by
    cases hq : b.pending q with
    | nil =>
      rcases dequeueFrom_cases h now w vt qs with ⟨heq, hempty⟩ | ⟨q', hq', hclaim⟩
      · exact .inl ⟨by rw [dequeueFrom, hq]; exact heq, by simpa [hq] using hempty⟩
      · refine .inr ⟨q', List.mem_cons_of_mem _ hq', ?_⟩
        rw [dequeueFrom, hq]
        exact hclaim
    | cons id rest =>
      obtain ⟨j, hj, -, -⟩ := h.of_head hq
      refine .inr ⟨q, List.mem_cons_self, id, rest, j, hq, hj, ?_⟩
      rw [dequeueFrom, hq]
      simp only [hj]

/-! ### The due jobs -/

theorem mem_dueJobs {c : (Time ×ₗ String) × WaitSet} : c ∈ b.dueJobs now ↔
    (b.waitSet c.2).lookup (ofLex c.1).2 = some (ofLex c.1).1 ∧ (ofLex c.1).1 ≤ now := by
  obtain ⟨c, set⟩ := c
  cases set <;> simp [dueJobs, List.mem_insertionSort, mem_due, waitSet]

/-- No job is due twice if none is in both sets. -/
theorem dueJobs_nodup (hdisj : ∀ id t t', b.scheduled.lookup id = some t →
    b.retry.lookup id = some t' → False) (now : Time) :
    ((b.dueJobs now).map fun c ↦ (ofLex c.1).2).Nodup := by
  have hperm := (List.perm_insertionSort (fun c c' : (Time ×ₗ String) × WaitSet ↦ c.1 ≤ c'.1)
    (((b.scheduled.due (fun _ ↦ true) now).map fun c ↦ (c, WaitSet.scheduled)) ++
      ((b.retry.due (fun _ ↦ true) now).map fun c ↦ (c, WaitSet.retry)))).map
    fun c ↦ (ofLex c.1).2
  refine hperm.nodup_iff.2 ?_
  rw [List.map_append, List.map_map, List.map_map]
  refine List.Nodup.append (keysOf_due_nodup _ _ _) (keysOf_due_nodup _ _ _) fun id hs hr ↦ ?_
  obtain ⟨t, ht, -⟩ := mem_keysOf_due.1 hs
  obtain ⟨t', ht', -⟩ := mem_keysOf_due.1 hr
  exact hdisj id t t' ht ht'

theorem Located.dueJobs_nodup (h : Located b) (now : Time) :
    ((b.dueJobs now).map fun c ↦ (ofLex c.1).2).Nodup := by
  refine Broker.dueJobs_nodup (fun id t t' ht ht' ↦ ?_) now
  have hne : WaitSet.scheduled ≠ .retry := by decide
  have hnone : b.retry.lookup id = none := h.other_waitSet ht hne.symm
  rw [hnone] at ht'
  cases ht'

/-! ### The calls -/

/-- A call is refused and leaves the broker as it was, or it performs the events its result says. -/
def Performs {α : Type} (b : Broker) (r : Except Err α × Broker)
    (evs : α → List (String × Event)) : Prop :=
  (∃ e, r = (.error e, b)) ∨ ∃ a, r.1 = .ok a ∧ Steps b (evs a) r.2

theorem performs_enqueue (h : Located b) (now : Time) {newID : String} {o : Option Job}
    (hnew : ∀ j, o = some j → b.jobs.lookup (j.assigned newID).id = none) :
    Performs b (b.enqueue now newID o) fun j ↦ [(j.id, .enqueued (newLife now j))] := by
  cases o with
  | none => exact .inl ⟨_, rfl⟩
  | some j =>
    rw [enqueue]
    split_ifs
    · exact .inl ⟨_, rfl⟩
    · exact .inl ⟨_, rfl⟩
    · exact .inl ⟨_, rfl⟩
    · cases b.uniqueHolder now j.uniqueKey with
      | some existing => exact .inl ⟨_, rfl⟩
      | none =>
        have hmove : Moves b _ _ (b.store now (stamped now newID j)) :=
          moves_store h (hnew j rfl)
        exact .inr ⟨stamped now newID j, rfl, hmove.single⟩

theorem performs_dequeue (h : Located b) (now : Time) (o : ClaimOpts) :
    Performs b (b.dequeue now o) fun j ↦ [(j.id, .claimed j.owner j.deadline)] := by
  rw [dequeue]
  split_ifs with hw
  · exact .inl ⟨_, rfl⟩
  · exact .inl ⟨_, rfl⟩
  · exact .inl ⟨_, rfl⟩
  · rcases dequeueFrom_cases h now o.workerID o.visibilityTimeout o.queues with
      ⟨heq, -⟩ | ⟨q, -, id, rest, j, hq, hj, heq⟩
    · exact .inl ⟨_, heq⟩
    · refine .inr ⟨_, congrArg Prod.fst heq, ?_⟩
      have hmove : Moves b id (.claimed _ (now + o.visibilityTimeout)) _ := moves_claim h hq hj hw
      rw [← h.keyed id j hj] at hmove
      rw [heq, ← h.keyed id j hj]
      exact hmove.single

theorem performs_ack (h : Located b) (w i : String) :
    Performs b (b.ack w i) fun _ ↦ [(i, .acked w)] := by
  rw [ack]
  split_ifs
  · exact .inl ⟨_, rfl⟩
  · cases hown : b.ownedActive w i with
    | error e => exact .inl ⟨e, rfl⟩
    | ok j =>
      obtain ⟨hj, hact, rfl⟩ := ownedActive_eq_ok.1 hown
      have hstep : canTransition j.state .completed ≠ false := by
        rw [hact]
        decide
      simp only [if_neg hstep]
      exact .inr ⟨(), rfl, (moves_ack h hj hact _).single⟩

theorem performs_nack (h : Located b) (w i : String) (r : Time) (reason : String) :
    Performs b (b.nack w i r reason) fun _ ↦ [(i, .nacked w r)] := by
  rw [nack]
  split_ifs
  · exact .inl ⟨_, rfl⟩
  · cases hown : b.ownedActive w i with
    | error e => exact .inl ⟨e, rfl⟩
    | ok j =>
      obtain ⟨hj, hact, rfl⟩ := ownedActive_eq_ok.1 hown
      refine .inr ⟨(), ?_⟩
      cases hex : j.exhausted with
      | true =>
        have hspent : spent j.attempt j.maxAttempts = true := hex
        simp only [if_pos (show Job.exhausted { j with owner := "", lastErr := reason } = true
          from hex)]
        refine ⟨trivial, Moves.single (moves_dead h hj hact ?_ ?_)⟩
        · exact h.keyed i j hj
        · simp [life_eq_some hj, phase, hact, Life.advance, Life.fallTo, hspent]
      | false =>
        simp only [if_neg (show Job.exhausted { j with owner := "", lastErr := reason } ≠ true
          from ne_true_of_eq_false hex)]
        exact ⟨trivial, (moves_retry h hj hact hex r reason).single⟩

theorem performs_kill (h : Located b) (w i reason : String) :
    Performs b (b.kill w i reason) fun _ ↦ [(i, .killed w)] := by
  rw [kill]
  split_ifs
  · exact .inl ⟨_, rfl⟩
  · cases hown : b.ownedActive w i with
    | error e => exact .inl ⟨e, rfl⟩
    | ok j =>
      obtain ⟨hj, hact, rfl⟩ := ownedActive_eq_ok.1 hown
      refine .inr ⟨(), rfl, Moves.single (moves_dead h hj hact ?_ ?_)⟩
      · exact h.keyed i j hj
      · simp [life_eq_some hj, phase, hact, Life.advance]

theorem performs_extend (h : Located b) (now : Time) (w : String) (ids : List String)
    (vt : Duration) : Performs b (b.extend now w ids vt) fun _ ↦
      (b.renewed w ids).map fun i ↦ (i, .extended w (now + vt)) := by
  rw [extend]
  split_ifs
  · exact .inl ⟨_, rfl⟩
  · exact .inl ⟨_, rfl⟩
  · exact .inr ⟨_, rfl, steps_extendLoop ids h⟩

/-- A call that counts is refused and leaves the broker as it was, or it performs its events and
returns how many they are. -/
def Tallies (b : Broker) (r : Except Err ℕ × Broker) (evs : List (String × Event)) : Prop :=
  (∃ e, r = (.error e, b)) ∨ r.1 = .ok evs.length ∧ Steps b evs r.2

theorem tallies_reap (h : Located b) (now : Time) (queues : List String) (limit : ℤ) :
    Tallies b (b.reap now queues limit)
      ((b.reaped now queues limit).map fun i ↦ (i, .reaped now)) := by
  by_cases hlim : limit ≤ 0
  · simp only [reap, reaped, hlim, true_or, if_true]
    exact .inr ⟨rfl, .refl h⟩
  · by_cases hclosed : b.closed = true
    · simp only [reap, if_neg hlim, if_pos hclosed]
      exact .inl ⟨_, rfl⟩
    · have hdue : ∀ c ∈ b.expired now queues, (ofLex c).1 ≤ now ∧
          b.active.lookup (ofLex c).2 = some (ofLex c).1 := fun c hc ↦
        ⟨(mem_due.1 hc).2.1, (mem_due.1 hc).1⟩
      obtain ⟨hcount, hsteps⟩ := steps_reapLoop (n := 0) h (keysOf_due_nodup _ _ _) hdue
      simp only [Nat.cast_zero, sub_zero, zero_add] at hcount hsteps
      rw [reap, if_neg hlim, if_neg hclosed, reaped, if_neg (by simp [hlim, hclosed])]
      exact .inr ⟨by rw [List.length_map]; exact congrArg Except.ok hcount, hsteps⟩

theorem tallies_promote (h : Located b) (now : Time) (limit : ℤ) :
    Tallies b (b.promote now limit)
      ((b.promoted now limit).map fun i ↦ (i, .promoted now)) := by
  by_cases hlim : limit ≤ 0
  · simp only [promote, promoted, hlim, true_or, if_true]
    exact .inr ⟨rfl, .refl h⟩
  · by_cases hclosed : b.closed = true
    · simp only [promote, if_neg hlim, if_pos hclosed]
      exact .inl ⟨_, rfl⟩
    · have hdue : ∀ c ∈ b.dueJobs now, (ofLex c.1).1 ≤ now ∧
          (b.waitSet c.2).lookup (ofLex c.1).2 = some (ofLex c.1).1 := fun c hc ↦
        (mem_dueJobs.1 hc).symm
      obtain ⟨hcount, hsteps⟩ := steps_promoteLoop (n := 0) h (h.dueJobs_nodup now) hdue
      simp only [Nat.cast_zero, sub_zero, zero_add] at hcount hsteps
      rw [promote, if_neg hlim, if_neg hclosed, promoted, if_neg (by simp [hlim, hclosed])]
      refine .inr ⟨?_, hsteps⟩
      rw [List.length_map, List.length_map]
      exact congrArg Except.ok hcount

theorem mem_selectDeadLocked {ids : List String} :
    id ∈ b.selectDeadLocked ids ↔ id ∈ b.dead ∧ (ids = [] ∨ id ∈ ids) := by
  rw [selectDeadLocked]
  split_ifs with hnil
  · simp [List.isEmpty_iff.1 hnil]
  · have hne : ids ≠ [] := fun h ↦ hnil (List.isEmpty_iff.2 h)
    simp [hne, and_comm]

/-- The dead-letter list names nothing twice. -/
theorem Located.dead_nodup (h : Located b) : b.dead.Nodup := by
  refine List.nodup_iff_count_le_one.2 fun x ↦ ?_
  rw [(h.counts x).2.2.2.2]
  split_ifs <;> simp

/-- So a selection repeats only what the caller repeats. -/
theorem Located.selectDeadLocked_nodup (h : Located b) {ids : List String} (hids : ids.Nodup) :
    (b.selectDeadLocked ids).Nodup := by
  rw [selectDeadLocked]
  split_ifs
  · exact h.dead_nodup
  · exact hids.filter _

theorem tallies_retryDead (h : Located b) {ids : List String}
    (hids : (b.selectDeadLocked ids).Nodup) :
    Tallies b (b.retryDead ids) ((b.selectDeadLocked ids).map fun i ↦ (i, .replayed)) := by
  rw [retryDead]
  split_ifs
  · exact .inl ⟨_, rfl⟩
  · obtain ⟨hcount, hsteps⟩ := steps_retryLoop (n := 0) h hids
      fun i hi ↦ (mem_selectDeadLocked.1 hi).1
    rw [zero_add] at hcount
    exact .inr ⟨by rw [List.length_map]; exact congrArg Except.ok hcount, hsteps⟩

theorem tallies_purgeDead (h : Located b) (ids : List String) :
    Tallies b (b.purgeDead ids)
      ((purges (b.selectDeadLocked ids) b).map fun i ↦ (i, .purged)) := by
  rw [purgeDead]
  split_ifs
  · exact .inl ⟨_, rfl⟩
  · obtain ⟨hcount, hsteps⟩ := steps_purgeLoop (n := 0) h
      fun i hi ↦ .inr (mem_selectDeadLocked.1 hi).1
    rw [zero_add] at hcount
    exact .inr ⟨by rw [List.length_map]; exact congrArg Except.ok hcount, hsteps⟩

/-- A call changes nothing about jobs. -/
structure SameJobs (b b' : Broker) : Prop where
  jobs : b'.jobs = b.jobs
  pending : b'.pending = b.pending
  active : b'.active = b.active
  scheduled : b'.scheduled = b.scheduled
  retry : b'.retry = b.retry
  dead : b'.dead = b.dead

theorem SameJobs.steps (hsame : SameJobs b b') (h : Located b) : Steps b [] b' := by
  cases b
  cases b'
  obtain ⟨rfl, rfl, rfl, rfl, rfl, rfl⟩ := hsame
  exact ⟨⟨h.keyed, h.housed, h.exact, h.owned, h.leased⟩, .quiet fun id ↦ .refl _, fun _ _ ↦ rfl⟩

theorem sameJobs_heartbeat (info : WorkerInfo) (ttl : Duration) :
    SameJobs b (b.heartbeat now info ttl).2 := by
  rw [heartbeat]
  split_ifs <;> exact ⟨rfl, rfl, rfl, rfl, rfl, rfl⟩

theorem sameJobs_acquireLease (name owner : String) (ttl : Duration) :
    SameJobs b (b.acquireLease now name owner ttl).2 := by
  rw [acquireLease]
  dsimp only
  split_ifs <;> exact ⟨rfl, rfl, rfl, rfl, rfl, rfl⟩

theorem sameJobs_releaseLease (name owner : String) :
    SameJobs b (b.releaseLease name owner).2 := by
  rw [releaseLease]
  split_ifs
  · exact ⟨rfl, rfl, rfl, rfl, rfl, rfl⟩
  · cases b.leases.lookup name with
    | none => exact ⟨rfl, rfl, rfl, rfl, rfl, rfl⟩
    | some e =>
      dsimp only
      split_ifs <;> exact ⟨rfl, rfl, rfl, rfl, rfl, rfl⟩

theorem sameJobs_scheduleCronIfAbsent (i : String) (t : Time) :
    SameJobs b (b.scheduleCronIfAbsent i t).2 := by
  rw [scheduleCronIfAbsent]
  split_ifs <;> exact ⟨rfl, rfl, rfl, rfl, rfl, rfl⟩

theorem sameJobs_claimCron (i : String) (t t' : Time) : SameJobs b (b.claimCron i t t').2 := by
  rw [claimCron]
  split_ifs <;> exact ⟨rfl, rfl, rfl, rfl, rfl, rfl⟩

theorem sameJobs_removeCron (i : String) : SameJobs b (b.removeCron i).2 := by
  rw [removeCron]
  split_ifs <;> exact ⟨rfl, rfl, rfl, rfl, rfl, rfl⟩

end Broker

open Broker

variable {b : Broker} {c : Call}

/-- What a call has to respect for its jobs to stay in place: a new job gets an ID no stored job
has, and a replay names no job twice. -/
def Safe (b : Broker) : Op → Prop
  | .enqueue newID (some j) => b.jobs.lookup (j.assigned newID).id = none
  | .retryDead ids => ids.Nodup
  | _ => True

/-- What is really needed of a replay: it selects no job twice, whatever else its list repeats. -/
def Careful (b : Broker) : Op → Prop
  | .enqueue newID (some j) => b.jobs.lookup (j.assigned newID).id = none
  | .retryDead ids => (b.selectDeadLocked ids).Nodup
  | _ => True

theorem Safe.careful {op : Op} (hsafe : Safe b op) (h : Located b) : Careful b op := by
  cases op with
  | enqueue newID o =>
    cases o with
    | none => trivial
    | some j => exact hsafe
  | retryDead ids => exact h.selectDeadLocked_nodup hsafe
  | _ => trivial

/-- **Every call is a sequence of moves**, those `events` reads off it. -/
theorem steps_exec_of_careful (h : Located b) (hcareful : Careful b c.op) :
    Steps b (events b c) (exec b c).2 := by
  obtain ⟨now, op⟩ := c
  cases op with
  | enqueue newID o =>
    have hnew : ∀ j, o = some j → b.jobs.lookup (j.assigned newID).id = none := by
      rintro j rfl
      exact hcareful
    rcases performs_enqueue h now hnew with ⟨e, he⟩ | ⟨a, ha, hsteps⟩
    · simpa [events, exec, he, Reply.of] using Steps.refl h
    · simpa [events, exec, ha, Reply.of] using hsteps
  | dequeue o =>
    rcases performs_dequeue h now o with ⟨e, he⟩ | ⟨a, ha, hsteps⟩
    · simpa [events, exec, he, Reply.of] using Steps.refl h
    · simpa [events, exec, ha, Reply.of] using hsteps
  | ack w i =>
    rcases performs_ack h w i with ⟨e, he⟩ | ⟨a, ha, hsteps⟩
    · simpa [events, exec, he, Reply.of] using Steps.refl h
    · simpa [events, exec, ha, Reply.of] using hsteps
  | nack w i r reason =>
    rcases performs_nack h w i r reason with ⟨e, he⟩ | ⟨a, ha, hsteps⟩
    · simpa [events, exec, he, Reply.of] using Steps.refl h
    · simpa [events, exec, ha, Reply.of] using hsteps
  | kill w i reason =>
    rcases performs_kill h w i reason with ⟨e, he⟩ | ⟨a, ha, hsteps⟩
    · simpa [events, exec, he, Reply.of] using Steps.refl h
    · simpa [events, exec, ha, Reply.of] using hsteps
  | extend w ids vt =>
    rcases performs_extend h now w ids vt with ⟨e, he⟩ | ⟨a, ha, hsteps⟩
    · simpa [events, exec, he, Reply.of] using Steps.refl h
    · simpa [events, exec, ha, Reply.of] using hsteps
  | reap queues limit =>
    rcases tallies_reap h now queues limit with ⟨e, he⟩ | ⟨ha, hsteps⟩
    · simpa [events, exec, he, Reply.of] using Steps.refl h
    · simpa [events, exec, ha, Reply.of] using hsteps
  | promote limit =>
    rcases tallies_promote h now limit with ⟨e, he⟩ | ⟨ha, hsteps⟩
    · simpa [events, exec, he, Reply.of] using Steps.refl h
    · simpa [events, exec, ha, Reply.of] using hsteps
  | retryDead ids =>
    rcases tallies_retryDead h hcareful with ⟨e, he⟩ | ⟨ha, hsteps⟩
    · simpa [events, exec, he, Reply.of] using Steps.refl h
    · simpa [events, exec, ha, Reply.of] using hsteps
  | purgeDead ids =>
    rcases tallies_purgeDead h ids with ⟨e, he⟩ | ⟨ha, hsteps⟩
    · simpa [events, exec, he, Reply.of] using Steps.refl h
    · simpa [events, exec, ha, Reply.of] using hsteps
  | close => exact SameJobs.steps ⟨rfl, rfl, rfl, rfl, rfl, rfl⟩ h
  | heartbeat info ttl => exact SameJobs.steps (sameJobs_heartbeat info ttl) h
  | acquireLease name owner ttl => exact SameJobs.steps (sameJobs_acquireLease name owner ttl) h
  | releaseLease name owner => exact SameJobs.steps (sameJobs_releaseLease name owner) h
  | scheduleCronIfAbsent i t => exact SameJobs.steps (sameJobs_scheduleCronIfAbsent i t) h
  | claimCron i t t' => exact SameJobs.steps (sameJobs_claimCron i t t') h
  | removeCron i => exact SameJobs.steps (sameJobs_removeCron i) h
  | stats | listDead | listWorkers | dueCron => exact .refl h

theorem steps_exec (h : Located b) (hsafe : Safe b c.op) : Steps b (events b c) (exec b c).2 :=
  steps_exec_of_careful h (hsafe.careful h)

/-! ### Runs -/

/-- What a run may do next, as far as the places of jobs are concerned: a job that is enqueued gets
an ID under which none was stored before, as it does when `Enqueue` is left to pick one, and a
replay names no job twice. -/
structure Fresh (h : List (Turn Broker Call)) (_ : Broker) (c : Call) : Prop where
  fresh : ∀ newID j, c.op = .enqueue newID (some j) → ∀ t ∈ h, ∀ j', reply t = .stored j' →
    j'.id ≠ (j.assigned newID).id
  distinct : ∀ ids, c.op = .retryDead ids → ids.Nodup

/-- What a run may do next if also the clock does not go back. -/
structure Admissible (h : List (Turn Broker Call)) (_ : Broker) (c : Call) : Prop where
  clock : ∀ t ∈ h, t.input.now ≤ c.now
  fresh : ∀ newID j, c.op = .enqueue newID (some j) → ∀ t ∈ h, ∀ j', reply t = .stored j' →
    j'.id ≠ (j.assigned newID).id
  distinct : ∀ ids, c.op = .retryDead ids → ids.Nodup

variable {h : List (Turn Broker Call)} {id : String}

/-- What `Enqueue` returns is what it filled in. -/
theorem stored_of_exec {newID : String} {o : Option Job} {j' : Job}
    (hop : c.op = .enqueue newID o) (hreply : (exec b c).1 = .stored j') :
    ∃ j, o = some j ∧ j' = stamped c.now newID j := by
  simp only [exec, hop, Prod.map_fst] at hreply
  cases o with
  | none => simp [enqueue, Reply.of] at hreply
  | some j =>
    rw [enqueue] at hreply
    split_ifs at hreply
    · simp [Reply.of] at hreply
    · simp [Reply.of] at hreply
    · simp [Reply.of] at hreply
    · cases hkey : b.uniqueHolder c.now j.uniqueKey with
      | some existing => simp [hkey, Reply.of] at hreply
      | none =>
        simp only [hkey, Reply.of, Reply.stored.injEq] at hreply
        exact ⟨j, rfl, hreply.symm⟩

/-- What `Dequeue` returns was at the head of a ready list, and is stored as it was returned. -/
theorem claimed_of_exec (hloc : Located b) {j : Job} (hreply : (exec b c).1 = .claimed j) :
    ∃ o q rest j₀, c.op = .dequeue o ∧ b.pending q = j.id :: rest ∧
      b.jobs.lookup j.id = some j₀ ∧ j = claimedJob c.now j₀ o.workerID o.visibilityTimeout ∧
      (exec b c).2 = (b.pop q).claim c.now j.id j₀ o.workerID o.visibilityTimeout := by
  obtain ⟨now, op⟩ := c
  have hof : ∀ {α : Type} {f : α → Reply} {r : Except Err α}, (∀ a, f a ≠ .claimed j) →
      Reply.of f r ≠ .claimed j := by
    intro α f r hf
    rcases r with e | a
    · simp [Reply.of]
    · exact hf a
  cases op with
  | dequeue o =>
    rcases hr : b.dequeue now o with ⟨e | j', b'⟩
    · simp [exec, hr, Reply.of] at hreply
    · obtain rfl : j' = j := by simpa [exec, hr, Reply.of] using hreply
      have hexec : (exec b ⟨now, .dequeue o⟩).2 = b' := by simp [exec, hr]
      rw [dequeue] at hr
      split_ifs at hr
      · cases hr
      · cases hr
      · cases hr
      · rcases dequeueFrom_cases hloc now o.workerID o.visibilityTimeout o.queues with
          ⟨heq, -⟩ | ⟨q, -, id, rest, j₀, hq, hj₀, heq⟩
        · rw [heq] at hr
          cases hr
        · rw [heq] at hr
          obtain ⟨h₁, h₂⟩ := Prod.mk.inj hr
          obtain rfl := Except.ok.inj h₁
          obtain rfl : j₀.id = id := hloc.keyed id j₀ hj₀
          exact ⟨o, q, rest, j₀, rfl, hq, hj₀, rfl, hexec.trans h₂.symm⟩
  | close | stats | listDead | listWorkers | dueCron =>
    refine absurd hreply ?_
    simp [exec, hof]
  | _ => exact absurd hreply (hof fun _ ↦ by simp)

theorem located_new : Located new := by
  refine ⟨by simp [new], by simp [new], fun id p ↦ ?_, by simp [new], by simp [new]⟩
  cases p <;> simp [mentions, home, new]

/-- Jobs stay in place in every run of careful calls, also one that uses an ID again once its job is
gone. -/
theorem located_of_careful (hrun : machine.Run (fun _ b c ↦ Careful b c.op) h b) : Located b :=
  hrun.invariant (P := fun _ b ↦ Located b) located_new fun _ _ _ _ hloc hcareful ↦
    (steps_exec_of_careful hloc hcareful).located

theorem Admissible.run (hrun : machine.Run Admissible h b) : machine.Run Fresh h b :=
  hrun.mono fun _ _ _ _ hok ↦ ⟨hok.fresh, hok.distinct⟩

theorem Fresh.not_enqueued (hok : Fresh h b c) {newID : String} {j : Job}
    (hop : c.op = .enqueue newID (some j)) (l : Life) :
    ((j.assigned newID).id, .enqueued l) ∉ history events h := by
  intro hmem
  obtain ⟨t, ht, hmem⟩ := mem_history.1 hmem
  obtain ⟨_, _, j', -, hreply, hid, -⟩ := mem_events_iff.1 hmem
  exact hok.fresh newID j hop t ht j' hreply hid

/-- An admitted call is safe: the ID of a new job is new to the broker because it is new to the
run. -/
theorem Fresh.safe (hok : Fresh h b c)
    (hseen : ∀ id, b.life id ≠ none → ∃ l, (id, .enqueued l) ∈ history events h) :
    Safe b c.op := by
  cases hop : c.op with
  | enqueue newID o =>
    cases o with
    | none => trivial
    | some j =>
      by_contra hne
      obtain ⟨j', hj'⟩ := Option.ne_none_iff_exists'.1 hne
      obtain ⟨l, hl⟩ := hseen (j.assigned newID).id (by simp [life_eq_some hj'])
      exact hok.not_enqueued hop l hl
  | retryDead ids => exact hok.distinct ids hop
  | _ => trivial

/-- **Jobs stay in place, and live as the automaton says**, in every run. -/
theorem lives_of_fresh (hrun : machine.Run Fresh h b) :
    Located b ∧ ∃ a, Follows (Life.advance spent) (fun _ ↦ none) (history events h) a ∧
      ∀ id, Life.Shown (a id) (b.life id) := by
  refine follows_of_run (fun id ↦ life_eq_none (AList.lookup_empty id)) located_new ?_ ?_ hrun
  · intro h b c hloc hseen hok
    have hsteps := steps_exec hloc (hok.safe hseen)
    exact ⟨hsteps.located, hsteps.path⟩
  · intro h b c hok id l hmem
    obtain ⟨newID, o, j', hop, hreply, rfl, rfl⟩ := mem_events_iff.1 hmem
    obtain ⟨j, rfl, rfl⟩ := stored_of_exec hop hreply
    exact ⟨by simp [events, hop, hreply], fun l' ↦ hok.not_enqueued hop l'⟩

/-- What a run may do next is safe. -/
theorem Fresh.safe_of_run (hok : Fresh h b c) (hrun : machine.Run Fresh h b) : Safe b c.op := by
  obtain ⟨-, a, hfollows, hshown⟩ := lives_of_fresh hrun
  exact hok.safe fun id hid ↦ enqueued_of_shown hfollows (hshown id) hid

theorem lives_of_run (hrun : machine.Run Admissible h b) :
    Located b ∧ ∃ a, Follows (Life.advance spent) (fun _ ↦ none) (history events h) a ∧
      ∀ id, Life.Shown (a id) (b.life id) := lives_of_fresh (Admissible.run hrun)

theorem located_of_run (hrun : machine.Run Admissible h b) : Located b := (lives_of_run hrun).1

/-- Every turn of a run is a sequence of moves. -/
theorem steps_of_run {t : Turn Broker Call} (hrun : machine.Run Admissible (t :: h) b) :
    Steps t.before (events t.before t.input) (machine.after t) := by
  obtain ⟨hprev, hok, -⟩ := (Admissible.run hrun).of_cons
  exact steps_exec (lives_of_fresh hprev).1 (hok.safe_of_run hprev)

/-! ### The stored jobs -/

/-- An `Enqueue` stored a job under this ID. -/
def Enqueued (h : List (Turn Broker Call)) (id : String) : Prop :=
  ∃ t ∈ h, ∃ newID o j, t.input.op = .enqueue newID o ∧ reply t = .stored j ∧ j.id = id

/-- An `Ack` of this ID succeeded. -/
def Acked (h : List (Turn Broker Call)) (id : String) : Prop :=
  ∃ t ∈ h, ∃ w, t.input.op = .ack w id ∧ reply t = .done

/-- A `PurgeDead` that succeeded covered this ID while it was dead. -/
def Purged (h : List (Turn Broker Call)) (id : String) : Prop :=
  ∃ t ∈ h, ∃ ids n, t.input.op = .purgeDead ids ∧ reply t = .count n ∧
    id ∈ t.before.dead ∧ (ids = [] ∨ id ∈ ids)

theorem mem_purges_iff : ∀ (ids : List String) (b : Broker),
    id ∈ purges ids b ↔ id ∈ ids ∧ (b.jobs.lookup id).isSome
  | [], b => by simp [purges]
  | x :: ids, b => by
    rw [purges]
    cases hx : b.jobs.lookup x with
    | none =>
      by_cases heq : id = x
      · subst heq
        simp [mem_purges_iff ids b, hx]
      · simp [mem_purges_iff ids b, heq]
    | some j =>
      by_cases heq : id = x
      · subst heq
        simp [hx]
      · have hkeep : (b.purge x).jobs.lookup id = b.jobs.lookup id := AList.lookup_erase_ne heq
        simp [mem_purges_iff ids (b.purge x), hkeep, heq]

theorem purged_iff (hrun : machine.Run Fresh h b) :
    (id, .purged) ∈ history events h ↔ Purged h id := by
  rw [mem_history]
  constructor
  · rintro ⟨t, ht, hmem⟩
    obtain ⟨ids, n, hop, hreply, hid⟩ := mem_events_iff.1 hmem
    obtain ⟨hdead, hids⟩ := mem_selectDeadLocked.1 ((mem_purges_iff _ _).1 hid).1
    exact ⟨t, ht, ids, n, hop, hreply, hdead, hids⟩
  · rintro ⟨t, ht, ids, n, hop, hreply, hdead, hids⟩
    obtain ⟨newer, older, rfl⟩ := List.append_of_mem ht
    obtain ⟨j, hj⟩ := (lives_of_fresh hrun.of_append.1).1.of_mem_dead hdead
    refine ⟨t, ht, mem_events_iff.2 ⟨ids, n, hop, hreply, (mem_purges_iff _ _).2 ⟨?_, ?_⟩⟩⟩
    · exact mem_selectDeadLocked.2 ⟨hdead, hids⟩
    · rw [hj]
      rfl

theorem enqueued_iff : (∃ l, (id, .enqueued l) ∈ history events h) ↔ Enqueued h id := by
  constructor
  · rintro ⟨l, hmem⟩
    obtain ⟨t, ht, hmem⟩ := mem_history.1 hmem
    obtain ⟨newID, o, j, hop, hreply, hid, -⟩ := mem_events_iff.1 hmem
    exact ⟨t, ht, newID, o, j, hop, hreply, hid⟩
  · rintro ⟨t, ht, newID, o, j, hop, hreply, hid⟩
    exact ⟨_, mem_history.2 ⟨t, ht, mem_events_iff.2 ⟨newID, o, j, hop, hreply, hid, rfl⟩⟩⟩

theorem acked_iff : (∃ w, (id, .acked w) ∈ history events h) ↔ Acked h id := by
  constructor
  · rintro ⟨w, hmem⟩
    obtain ⟨t, ht, hmem⟩ := mem_history.1 hmem
    obtain ⟨hop, hreply⟩ := mem_events_iff.1 hmem
    exact ⟨t, ht, w, hop, hreply⟩
  · rintro ⟨t, ht, w, hop, hreply⟩
    exact ⟨w, mem_history.2 ⟨t, ht, mem_events_iff.2 ⟨hop, hreply⟩⟩⟩

/-- **The stored jobs** of a run are those enqueued and neither acked nor purged since. -/
theorem stored_iff (hrun : machine.Run Fresh h b) (id : String) :
    (b.jobs.lookup id).isSome ↔ Enqueued h id ∧ ¬ Acked h id ∧ ¬ Purged h id := by
  obtain ⟨hloc, a, hfollows, hshown⟩ := lives_of_fresh hrun
  have halive : (b.jobs.lookup id).isSome ↔ ∃ l, a id = some l ∧ l.phase ≠ .done := by
    have hview := hshown id
    cases hj : b.jobs.lookup id with
    | none =>
      rw [life_eq_none hj] at hview
      rcases hview with h | ⟨-, l, hl, hdone⟩
      · simp [← h]
      · simp [hl, hdone]
    | some j =>
      rw [life_eq_some hj] at hview
      have hhoused := hloc.housed id j hj
      have hphase : b.phase id j ≠ .done := by
        cases hstate : j.state <;> simp_all [phase, place]
      simp [hview.eq_of_some, hphase]
  rw [halive, Life.alive_iff (hfollows id)]
  simp only [mem_eventsAt, enqueued_iff, ← acked_iff, ← purged_iff hrun]
  refine and_congr_right fun _ ↦ ⟨fun hend ↦ ⟨?_, fun hp ↦ ?_⟩, fun hend e he ↦ ?_⟩
  · rintro ⟨w, hw⟩
    simpa [Event.isEnd] using hend _ hw
  · simpa [Event.isEnd] using hend _ hp
  · cases e with
    | acked w => exact absurd ⟨w, he⟩ hend.1
    | purged => exact absurd he hend.2
    | _ => rfl

/-- **No job is lost or duplicated.** In every run, the stored jobs are those enqueued and neither
acked nor purged. Each is mentioned once by the container its state names, which for a pending job
is the ready list of its own queue, and by no other; it has an owner exactly while it is active, and
the active set then carries its deadline. An ID without a job is mentioned nowhere. -/
theorem no_job_lost_or_duplicated (hrun : machine.Run Admissible h b) (id : String) :
    ((b.jobs.lookup id).isSome ↔ Enqueued h id ∧ ¬ Acked h id ∧ ¬ Purged h id) ∧
    (∀ j, b.jobs.lookup id = some j →
      (place j).isSome ∧ (∀ p, b.mentions p id = if place j = some p then 1 else 0) ∧
      (j.owner ≠ "" ↔ j.state = .active) ∧
      (j.state = .active → b.active.lookup id = some j.deadline)) ∧
    (b.jobs.lookup id = none → ∀ p, b.mentions p id = 0) := by
  have hloc := located_of_run hrun
  refine ⟨stored_iff (Admissible.run hrun) id,
    fun j hj ↦ ⟨hloc.housed id j hj, fun p ↦ ?_, hloc.owned id j hj,
    hloc.leased id j hj⟩, fun hnone p ↦ hloc.exact.eq_zero_of_none ?_ p⟩
  · rw [hloc.exact id p, home, hj, Option.bind_some]
  · rw [home, hnone, Option.bind_none]

/-- A job is enqueued and claimed: the run is admissible, and its job is in the active set alone. -/
theorem no_job_lost_or_duplicated_claimed :
    ∃ h b, machine.Run Admissible h b ∧ (b.jobs.lookup "a").isSome ∧ Enqueued h "a" ∧
      b.mentions .active "a" = 1 ∧ b.mentions (.pending "q") "a" = 0 := by
  have hrun : machine.Run Admissible _ _ :=
    .step ⟨1, .dequeue ⟨"w", ["q"], 10⟩⟩ (.step ⟨0, .enqueue "a" (some (.plain "q" "t" 1))⟩ .start
      ⟨by simp, by simp, by simp⟩) ⟨by simp, by simp, by simp⟩
  obtain ⟨hstored, hplaced, -⟩ := no_job_lost_or_duplicated hrun "a"
  refine ⟨_, _, hrun, by decide, (hstored.1 (by decide)).1, ?_, ?_⟩
  · exact (hplaced _ rfl).2.1 .active
  · exact (hplaced _ rfl).2.1 (.pending "q")

end TaskQueue.Memory
