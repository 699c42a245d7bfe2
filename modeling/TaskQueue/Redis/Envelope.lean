import TaskQueue.Fencing
import TaskQueue.Redis.Wire

/-!
# The envelope of a job

From the `Enqueue` that stores a job to the first `Dequeue` that returns it, other jobs come and go,
and other clients may even report on this one. Its envelope is not touched by any of that: a job
that **rests**, in a hash that is not active and with no lease, can only be promoted or claimed, and
promotion changes the state and nothing else (`rests_exec`). This needs no assumption about the IDs
of the other jobs, which may be stored again and again.

What `Dequeue` then returns is the job as it was enqueued, up to what the scripts fill in and the
millisecond (`received`). `TaskQueue.Redis.Wire` takes this down to the byte strings that the
scripts write and `HGETALL` lists.
-/

namespace TaskQueue.Redis

open Store Script

/-- The hash that `promote.lua` leaves. -/
def Hash.promoted (h : Hash) : Hash := { h with state := .pending, owner := "" }

/-- A hash is stored under its own ID, and job `id` is not active and has no lease. -/
structure Resting (s : Store) (id : String) : Prop where
  keyed : ∀ x e, s.job x = some e → e.hash.id = x
  still : ∀ e, s.job id = some e → e.hash.state ≠ .active ∧ e.expireAt = none
  active : ∀ q, (s.active q).lookup id = none

/-- Job `id` still rests, and it was promoted if anything. -/
structure Rests (s s' : Store) (id : String) : Prop where
  resting : Resting s' id
  job : s'.job id = s.job id ∨
    ∃ e, s.job id = some e ∧ s'.job id = some ⟨e.hash.promoted, none⟩

variable {s s' s'' : Store} {id x q w : String} {now : ℤ} {h : Hash} {e : Entry}

/-! ### One step -/

theorem Rests.refl (hs : Resting s id) : Rests s s id := ⟨hs, .inl rfl⟩

theorem Rests.trans (h : Rests s s' id) (h' : Rests s' s'' id) : Rests s s'' id := by
  refine ⟨h'.resting, ?_⟩
  rcases h.job with hsame | ⟨e, he, he'⟩
  · rw [← hsame]
    exact h'.job
  · rcases h'.job with hsame' | ⟨e', hmid, he''⟩
    · exact .inr ⟨e, he, hsame'.trans he'⟩
    · obtain rfl := Option.some.inj (hmid.symm.trans he')
      exact .inr ⟨e, he, he''⟩

/-- A write to another job. -/
theorem Resting.of_other (hs : Resting s id) (hx : x ≠ id)
    (hjob : ∀ y, y ≠ x → s'.job y = s.job y) (hkeyed : ∀ e, s'.job x = some e → e.hash.id = x)
    (hactive : ∀ q, (s'.active q).lookup id = none) : Rests s s' id := by
  refine ⟨⟨fun y e he ↦ ?_, fun e he ↦ ?_, hactive⟩, .inl (hjob id hx.symm)⟩
  · by_cases hy : y = x
    · subst hy
      exact hkeyed e he
    · exact hs.keyed y e ((hjob y hy).symm.trans he)
  · exact hs.still e ((hjob id hx.symm).symm.trans he)

/-- A write to the job itself that leaves it at rest. -/
theorem Resting.of_self (hs : Resting s id) (hjob : s'.job id = some ⟨h, none⟩)
    (hother : ∀ y, y ≠ id → s'.job y = s.job y) (hid : h.id = id) (hstate : h.state ≠ .active)
    (hactive : s'.active = s.active) : Resting s' id := by
  refine ⟨fun y e he ↦ ?_, fun e he ↦ ?_, fun q ↦ ?_⟩
  · by_cases hy : y = id
    · subst hy
      obtain rfl := Option.some.inj (he.symm.trans hjob)
      exact hid
    · exact hs.keyed y e ((hother y hy).symm.trans he)
  · obtain rfl := Option.some.inj (he.symm.trans hjob)
    exact ⟨hstate, rfl⟩
  · rw [hactive]
    exact hs.active q

/-- A change that no job hash and no lease shows. -/
theorem Resting.of_same (hs : Resting s id) (hjob : s'.job = s.job)
    (hactive : s'.active = s.active) : Rests s s' id := by
  refine ⟨⟨?_, ?_, ?_⟩, .inl (by rw [hjob])⟩
  · rw [hjob]
    exact hs.keyed
  · rw [hjob]
    exact hs.still
  · rw [hactive]
    exact hs.active

/-- A write to the hash of another job. -/
theorem Resting.of_hset (hs : Resting s id) (hjob : s'.job = (s.hset x h).job) (hx : x ≠ id)
    (hid : h.id = x) (hactive : ∀ q, (s'.active q).lookup id = none) : Rests s s' id := by
  refine hs.of_other hx (fun y hy ↦ ?_) (fun e he ↦ ?_) hactive
  · rw [hjob]
    exact Function.update_of_ne hy _ _
  · have hself : (s.hset x h).job x = some ⟨h, (s.job x).bind Entry.expireAt⟩ :=
      Function.update_self _ _ _
    rw [hjob, hself] at he
    obtain rfl := Option.some.inj he
    exact hid

theorem Resting.lookup_zremActive (hs : Resting s id) (q' x q : String) :
    ((s.zremActive q' x).active q).lookup id = none := by
  rw [zremActive, Table.lookup_update]
  split_ifs
  · rw [Table.lookup_erase_eq, hs.active, ite_self]
  · exact hs.active q

theorem Resting.lookup_zaddActive (hs : Resting s id) (hx : x ≠ id) (q' : String) (score : ℤ)
    (q : String) : ((s.zaddActive q' x score).active q).lookup id = none := by
  rw [zaddActive, Table.lookup_update]
  split_ifs
  · rw [Table.lookup_insert_eq, if_neg hx.symm, hs.active]
  · exact hs.active q

/-! ### The scripts -/

theorem place_hset (s : Store) (h : Hash) :
    (place s h).job = (s.hset h.id h).job ∧ (place s h).active = s.active := by
  rw [place]
  dsimp only
  split_ifs <;> exact ⟨rfl, rfl⟩

theorem rests_place (hs : Resting s id) (hid : h.id ≠ id) : Rests s (place s h) id := by
  refine hs.of_hset (place_hset s h).1 hid rfl fun q ↦ ?_
  rw [(place_hset s h).2]
  exact hs.active q

/-- A job that is stored under an ID that is not in use begins to rest. -/
theorem resting_place (hs : Resting s h.id) (hnone : s.job h.id = none)
    (hstate : h.state ≠ .active) :
    Resting (place s h) h.id ∧ (place s h).job h.id = some ⟨h, none⟩ := by
  have hjob : (place s h).job h.id = some ⟨h, none⟩ := by
    rw [job_place, hnone]
    rfl
  have hother : ∀ y, y ≠ h.id → (place s h).job y = s.job y := by
    intro y hy
    rw [(place_hset s h).1]
    exact Function.update_of_ne hy _ _
  exact ⟨hs.of_self hjob hother rfl hstate (place_hset s h).2, hjob⟩

/-- The fence lets nobody through to a job that rests. -/
theorem Resting.ne_of_fence (hs : Resting s id) (hfence : fence s w x = .ok h) :
    x ≠ id ∧ h.id = x := by
  obtain ⟨e, he, rfl, hact, -⟩ := fence_eq_ok.1 hfence
  refine ⟨?_, hs.keyed x e he⟩
  rintro rfl
  exact (hs.still e he).1 hact

theorem rests_ack (hs : Resting s id) (now ttl : ℤ) (w x : String) :
    Rests s (Script.ack s now w x ttl).2 id := by
  rw [Script.ack]
  rcases hfence : fence s w x with r | h
  · exact .refl hs
  · obtain ⟨hx, rfl⟩ := hs.ne_of_fence hfence
    dsimp only
    split_ifs
    · refine hs.of_other hx (fun y hy ↦ ?_) (fun e he ↦ ?_) (hs.lookup_zremActive h.queue h.id)
      · simp [pexpire, hset, zremActive, Function.update_of_ne hy]
      · simp only [pexpire, hset, zremActive, Function.update_self, Option.map_some,
          Option.some.injEq] at he
        rw [← he]
    · refine hs.of_other hx (fun y hy ↦ ?_) (fun e he ↦ ?_) (hs.lookup_zremActive h.queue h.id)
      · exact Function.update_of_ne hy _ _
      · simp [del] at he

theorem rests_deadLetter (hs : Resting s id) (hid : h.id ≠ id) (now : ℤ) :
    Rests s (deadLetter (s.zremActive h.queue h.id) now h.id h) id :=
  hs.of_hset rfl hid rfl (hs.lookup_zremActive h.queue h.id)

theorem rests_nack (hs : Resting s id) (now retryAt : ℤ) (w x reason : String) :
    Rests s (Script.nack s now w x retryAt reason).2 id := by
  rw [Script.nack]
  rcases hfence : fence s w x with r | h
  · exact .refl hs
  · obtain ⟨hx, rfl⟩ := hs.ne_of_fence hfence
    dsimp only
    split_ifs
    · exact rests_deadLetter (h := { h with lastErr := reason, owner := "" }) hs hx now
    · exact hs.of_hset rfl hx rfl (hs.lookup_zremActive h.queue h.id)

theorem rests_kill (hs : Resting s id) (now : ℤ) (w x reason : String) :
    Rests s (Script.kill s now w x reason).2 id := by
  rw [Script.kill]
  rcases hfence : fence s w x with r | h
  · exact .refl hs
  · obtain ⟨hx, rfl⟩ := hs.ne_of_fence hfence
    exact rests_deadLetter (h := { h with lastErr := reason }) hs hx now

theorem rests_extend {deadline : ℤ} {ids : List String} :
    ∀ {s : Store}, Resting s id → Rests s (Script.extend w deadline ids s).2 id := by
  induction ids with
  | nil => exact fun hs ↦ .refl hs
  | cons x ids ih =>
    intro s hs
    rw [Script.extend]
    rcases hfence : fence s w x with r | h
    · exact ih hs
    · obtain ⟨hx, rfl⟩ := hs.ne_of_fence hfence
      have hrenew : Rests s (renew s h.id h deadline) id :=
        hs.of_hset rfl hx rfl (hs.lookup_zaddActive hx h.queue deadline)
      exact hrenew.trans (ih hrenew.resting)

theorem rests_recover (hs : Resting s id) (hid : h.id ≠ id) (now : ℤ) (q : String) :
    Rests s (recover s now q h.id h) id := by
  rw [recover]
  dsimp only
  split_ifs
  · exact hs.of_hset rfl hid rfl hs.active
  · exact hs.of_hset rfl hid rfl hs.active

theorem rests_reapLoop {ids : List String} :
    ∀ {n : ℕ × ℕ} {s : Store}, Resting s id → Rests s (reapLoop now q ids n s).2 id := by
  induction ids with
  | nil => exact fun hs ↦ .refl hs
  | cons x ids ih =>
    intro n s hs
    rw [reapLoop]
    split_ifs with hleased
    · have hx : x ≠ id := by
        rintro rfl
        rw [hs.active] at hleased
        cases hleased
      have hzrem : Rests s (s.zremActive q x) id :=
        hs.of_other hx (fun _ _ ↦ rfl) (hs.keyed x) (hs.lookup_zremActive q x)
      dsimp only
      rcases he : (s.zremActive q x).job x with - | e
      · exact hzrem.trans (ih hzrem.resting)
      · obtain rfl : e.hash.id = x := hs.keyed x e he
        have hrecover := rests_recover hzrem.resting hx now q
        exact hzrem.trans (hrecover.trans (ih hrecover.resting))
    · exact ih hs

/-- Promotion is the one thing that can happen to a job that rests. -/
theorem rests_promoteJob (hs : Resting s id) (he : s.job x = some e) :
    Rests s (promoteJob s x e.hash) id := by
  have hid : e.hash.id = x := hs.keyed x e he
  by_cases hx : x = id
  · subst hx
    have hjob : (promoteJob s x e.hash).job x = some ⟨e.hash.promoted, none⟩ := by
      rw [promoteJob, rpush, hset]
      simp only [Function.update_self, he, Option.bind_some, (hs.still e he).2]
      rfl
    have hother : ∀ y, y ≠ x → (promoteJob s x e.hash).job y = s.job y :=
      fun y hy ↦ Function.update_of_ne hy _ _
    have hstate : e.hash.promoted.state ≠ .active := by simp [Hash.promoted]
    exact ⟨hs.of_self hjob hother hid hstate rfl, .inr ⟨e, he, hjob⟩⟩
  · subst hid
    exact hs.of_hset rfl hx rfl hs.active

theorem rests_promoteLoop {set : WaitSet} {ids : List String} :
    ∀ {n : ℕ} {s : Store}, Resting s id → Rests s (promoteLoop set ids n s).2 id := by
  induction ids with
  | nil => exact fun hs ↦ .refl hs
  | cons x ids ih =>
    intro n s hs
    rw [promoteLoop]
    split_ifs
    · have hzrem : Rests s (zremWait s set x) id := hs.of_same (by simp) (by simp)
      dsimp only
      rcases he : (zremWait s set x).job x with - | e
      · exact hzrem.trans (ih hzrem.resting)
      · have hpromote := rests_promoteJob hzrem.resting he
        exact hzrem.trans (hpromote.trans (ih hpromote.resting))
    · exact ih hs

theorem rests_promoteSet (now limit : ℤ) (set : WaitSet) {r : ℕ × Store} (hs : Resting r.2 id) :
    Rests r.2 (promoteSet now limit set r).2 id := by
  rw [promoteSet]
  split_ifs
  · exact rests_promoteLoop hs
  · exact .refl hs

/-- Job `id` was claimed, and it rested until then. -/
def ClaimedAt (now : ℤ) (w : String) (vt : ℤ) (id : String) (s : Store) (r : Option Hash × Store) :
    Prop :=
  ∃ s₁ e, Rests s s₁ id ∧ s₁.job id = some e ∧ r.1 = some (claimed now w vt e.hash) ∧
    r.2.job id = some ⟨claimed now w vt e.hash, none⟩

/-- No job with this ID was claimed, and the job rests. -/
def PassedOver (id : String) (s : Store) (r : Option Hash × Store) : Prop :=
  (∀ h, r.1 = some h → h.id ≠ id) ∧ Rests s r.2 id

theorem Rests.claimedAt {vt : ℤ} {r : Option Hash × Store} (hrests : Rests s s' id)
    (hclaim : ClaimedAt now w vt id s' r) : ClaimedAt now w vt id s r := by
  obtain ⟨s₁, e, hrests', hrest⟩ := hclaim
  exact ⟨s₁, e, hrests.trans hrests', hrest⟩

theorem Rests.passedOver {r : Option Hash × Store} (hrests : Rests s s' id)
    (hover : PassedOver id s' r) : PassedOver id s r := ⟨hover.1, hrests.trans hover.2⟩

theorem popJob_resting (now : ℤ) (w : String) (vt : ℤ) (q : String) (n : ℕ) :
    ∀ {s : Store}, Resting s id → ClaimedAt now w vt id s (popJob now w vt q n s) ∨
      PassedOver id s (popJob now w vt q n s) := by
  induction n with
  | zero => exact fun hs ↦ .inr ⟨by simp [popJob], .refl hs⟩
  | succ n ih =>
    intro s hs
    rcases hq : s.ready q with - | ⟨x, rest⟩
    · simp only [popJob, hq]
      exact .inr ⟨by simp, .refl hs⟩
    · rcases he : s.job x with - | e
      · -- an ID without a hash is dropped, and it is not this one's business
        simp only [popJob, hq, he]
        have hpop : Rests s (s.lpop q) id := hs.of_same rfl rfl
        exact (ih hpop.resting).imp hpop.claimedAt hpop.passedOver
      · simp only [popJob, hq, he]
        by_cases hx : x = id
        · subst hx
          refine .inl ⟨s, e, .refl hs, he, rfl, ?_⟩
          simp [claim, zaddActive, hset, lpop, he, (hs.still e he).2]
        · obtain rfl : e.hash.id = x := hs.keyed x e he
          refine .inr ⟨fun h hh ↦ ?_, ?_⟩
          · obtain rfl := Option.some.inj hh
            exact hx
          · exact hs.of_hset rfl hx rfl (hs.lookup_zaddActive hx q (now + vt))

/-- **`dequeue.lua`** claims the job or passes over it. -/
theorem dequeue_resting (now : ℤ) (w : String) (vt : ℤ) (qs : List String) :
    ∀ {s : Store}, Resting s id → ClaimedAt now w vt id s (Script.dequeue now w vt qs s) ∨
      PassedOver id s (Script.dequeue now w vt qs s) := by
  induction qs with
  | nil => exact fun hs ↦ .inr ⟨by simp [Script.dequeue], .refl hs⟩
  | cons q qs ih =>
    intro s hs
    have hpop := popJob_resting now w vt q 20 hs
    rw [Script.dequeue]
    rcases hr : popJob now w vt q 20 s with ⟨- | h, s'⟩
    · rw [hr] at hpop
      rcases hpop with ⟨s₁, e, -, -, hnone, -⟩ | ⟨-, hrests⟩
      · cases hnone
      · exact (ih hrests.resting).imp hrests.claimedAt hrests.passedOver
    · rw [hr] at hpop
      exact hpop

/-! ### Calls -/

variable {cfg : Config} {c : Call} {t : Turn Store Call} {newer older : List (Turn Store Call)}

theorem Resting.live (hs : Resting s id) (visible : ℤ → ℤ → Bool) (now : ℤ) :
    Rests s (s.live visible now) id := by
  have hjob : ∀ x e, (s.live visible now).job x = some e → s.job x = some e :=
    fun x e he ↦ (Option.filter_eq_some_iff.1 he).1
  refine ⟨⟨fun x e he ↦ hs.keyed x e (hjob x e he), fun e he ↦ hs.still e (hjob id e he),
    hs.active⟩, .inl ?_⟩
  rcases he : s.job id with - | e
  · simp [Store.live, he]
  · simp [Store.live, he, (hs.still e he).2]

theorem rests_enqueue (hs : Resting s id) (now : ℤ) (newID : String) (wall : Time) (o : Option Job)
    (hother : ∀ j, (enqueue s now newID wall o).1 = .ok j → j.id ≠ id) :
    Rests s (enqueue s now newID wall o).2 id := by
  rcases enqueue_cases s now newID wall o with ⟨err, heq⟩ | ⟨j, st, s₁, rfl, hsame, heq⟩
  · rw [heq]
    exact .refl hs
  · rw [heq] at hother ⊢
    have hsame' : Rests s s₁ id := hs.of_same hsame.job hsame.active
    have hid := hother { j.assigned newID with state := st } rfl
    exact hsame'.trans (rests_place hsame'.resting hid)

/-- `Dequeue` claims the job or passes over it. -/
theorem claimNext_resting (hs : Resting s id) (now : ℤ) (o : ClaimOpts) :
    (∃ s₁ e, Rests s s₁ id ∧ s₁.job id = some e ∧
      (claimNext s now o).1 =
        .ok (claimed now o.workerID (milliseconds o.visibilityTimeout) e.hash) ∧
      (claimNext s now o).2.job id =
        some ⟨claimed now o.workerID (milliseconds o.visibilityTimeout) e.hash, none⟩) ∨
    (∀ h, (claimNext s now o).1 = .ok h → h.id ≠ id) ∧ Rests s (claimNext s now o).2 id := by
  rcases claimNext_script s now o with ⟨err, heq⟩ | ⟨-, -, heq⟩
  · rw [heq]
    exact .inr ⟨by simp, .refl hs⟩
  · rw [heq]
    rcases dequeue_resting now o.workerID (milliseconds o.visibilityTimeout) o.queues hs with
      ⟨s₁, e, hrests, he, hclaim, hjob⟩ | ⟨hother, hrests⟩
    · refine .inl ⟨s₁, e, hrests, he, ?_, hjob⟩
      rw [Prod.map_fst, hclaim]
      rfl
    · refine .inr ⟨fun h hh ↦ hother h ?_, hrests⟩
      rw [Prod.map_fst] at hh
      rcases hr : (Script.dequeue now o.workerID (milliseconds o.visibilityTimeout) o.queues s).1
        with - | h'
      · rw [hr] at hh
        cases hh
      · rw [hr] at hh
        exact congrArg some (Except.ok.inj hh)

/-- **A call leaves the job at rest** unless it stores another one under its ID or claims it. -/
theorem rests_exec (hs : Resting s id) (hid : id ≠ "") (hstores : ¬ Stores cfg ⟨s, c⟩ id)
    (hreturns : ¬ Returns cfg ⟨s, c⟩ id) : Rests s (exec cfg s c).2 id := by
  have hlive := hs.live cfg.visible c.now
  refine hlive.trans ?_
  obtain ⟨now, op⟩ := c
  cases op with
  | enqueue newID wall o =>
    refine rests_enqueue hlive.resting now newID wall o fun j hj heq ↦ ?_
    refine hstores ⟨newID, wall, o, j, rfl, ?_, heq⟩
    show Reply.of .stored (enqueue (s.live cfg.visible now) now newID wall o).1 = _
    rw [hj]
    rfl
  | dequeue o =>
    rcases claimNext_resting hlive.resting now o with
      ⟨s₁, e, hrests, he, hclaim, -⟩ | ⟨-, hrests⟩
    · -- a claimed job is returned
      have hhash : e.hash.id = id := hrests.resting.keyed id e he
      obtain ⟨j, hj, hjid⟩ := decodeJob_of_ne
        (h := claimed now o.workerID (milliseconds o.visibilityTimeout) e.hash) (hhash ▸ hid)
      have hreply := (claimed_iff rfl).2 ⟨_, hclaim, hj⟩
      exact absurd ⟨_, _, o, j, rfl, rfl, hreply, hjid.trans hhash, rfl⟩ hreturns
    · exact hrests
  | ack w x => exact rests_ack hlive.resting _ _ w x
  | nack w x t reason => exact rests_nack hlive.resting _ _ w x reason
  | kill w x reason => exact rests_kill hlive.resting _ w x reason
  | extend w ids vt =>
    show Rests _ (extend _ _ w ids vt).2 id
    rw [extend]
    split_ifs
    · exact .refl hlive.resting
    · exact .refl hlive.resting
    · exact rests_extend hlive.resting
  | reap q limit =>
    show Rests _ (reapQueue _ _ q limit).2 id
    rw [reapQueue]
    split_ifs
    · exact .refl hlive.resting
    · exact .refl hlive.resting
    · exact rests_reapLoop hlive.resting
  | promote limit =>
    show Rests _ (promote _ _ limit).2 id
    rw [promote]
    split_ifs
    · exact .refl hlive.resting
    · exact .refl hlive.resting
    · have hdelayed := rests_promoteSet now limit .delayed (r := (0, _)) hlive.resting
      exact hdelayed.trans (rests_promoteSet now limit .retry hdelayed.resting)
  | scheduleCronIfAbsent i t =>
    show Rests _ (scheduleCronIfAbsent (s.live cfg.visible now) i t).2 id
    obtain ⟨cron, heq⟩ := scheduleCronIfAbsent_cron (s.live cfg.visible now) i t
    rw [heq]
    exact hlive.resting.of_same rfl rfl
  | dueCron limit => exact .refl hlive.resting
  | claimCron i t t' =>
    show Rests _ (claimCron (s.live cfg.visible now) i t t').2 id
    obtain ⟨cron, heq⟩ := claimCron_cron (s.live cfg.visible now) i t t'
    rw [heq]
    exact hlive.resting.of_same rfl rfl
  | removeCron i => exact hlive.resting.of_same rfl rfl

/-! ### Runs -/

/-- The runs of the broker: any calls, by anybody, at any server times. -/
abbrev AnyRun (cfg : Config) (h : List (Turn Store Call)) (s : Store) : Prop :=
  (machine cfg).Run (fun _ _ _ ↦ True) h s

/-- A job that is not there is not claimed. -/
theorem Resting.not_returns (hs : Resting s id) (hnone : s.job id = none) :
    ¬ Returns cfg ⟨s, c⟩ id := by
  rintro ⟨-, -, o, j, hop, -, hreply, hid, -⟩
  have hlive := hs.live cfg.visible c.now
  obtain ⟨h, hclaim, hj⟩ := (claimed_iff hop).1 hreply
  rcases claimNext_resting hlive.resting c.now o with ⟨s₁, e, hrests, he, -⟩ | ⟨hother, -⟩
  · rcases (hlive.trans hrests).job with hsame | ⟨e', he', -⟩
    · rw [hsame, hnone] at he
      cases he
    · rw [hnone] at he'
      cases he'
  · exact hother h hclaim ((decodeJob_ok hj).2.1.symm.trans hid)

/-- **An ID under which nothing was stored** is not in use. -/
theorem unused_of_run (hrun : AnyRun cfg older s) (hid : id ≠ "")
    (hfresh : ∀ t ∈ older, ¬ Stores cfg t id) : Resting s id ∧ s.job id = none := by
  induction hrun with
  | start => exact ⟨⟨by simp [machine, empty], by simp [machine, empty], fun q ↦ rfl⟩, rfl⟩
  | @step h s c hrun _ ih =>
    rw [List.forall_mem_cons] at hfresh
    obtain ⟨hs, hnone⟩ := ih hfresh.2
    have hrests := rests_exec hs hid hfresh.1 (hs.not_returns hnone)
    refine ⟨hrests.resting, ?_⟩
    rcases hrests.job with hsame | ⟨e, he, -⟩
    · exact hsame.trans hnone
    · rw [hnone] at he
      cases he

/-- **The job is at rest** until a `Dequeue` returns it. -/
theorem rests_of_run (hrun : AnyRun cfg (newer ++ t :: older) s) (hid : id ≠ "")
    (hs : Resting ((machine cfg).after t) id) (hstores : ∀ t ∈ newer, ¬ Stores cfg t id)
    (hreturns : ∀ t ∈ newer, ¬ Returns cfg t id) : Rests ((machine cfg).after t) s id := by
  induction newer generalizing s with
  | nil =>
    obtain ⟨-, -, rfl⟩ := hrun.of_cons
    exact .refl hs
  | cons t' newer ih =>
    obtain ⟨hbefore, -, rfl⟩ := hrun.of_cons
    rw [List.forall_mem_cons] at hstores hreturns
    have hrests := ih hbefore hstores.2 hreturns.2
    exact hrests.trans (rests_exec hrests.resting hid hstores.1 hreturns.1)

/-- **What an `Enqueue` stores** under an ID that is not in use. -/
theorem resting_of_stored {newID : String} {wall : Time} {j j₀ : Job} (hs : Resting s j₀.id)
    (hnone : s.job j₀.id = none) (hop : c.op = .enqueue newID wall (some j))
    (hstored : (exec cfg s c).1 = .stored j₀) :
    Resting (exec cfg s c).2 j₀.id ∧
      (exec cfg s c).2.job j₀.id = some ⟨jobHash c.now (j.assigned newID), none⟩ := by
  have hlive := hs.live cfg.visible c.now
  have hgone : (seen cfg s c).job j₀.id = none := by
    simp [seen, Store.live, hnone]
  rw [exec, hop] at hstored ⊢
  obtain ⟨j', st, s₁, ⟨⟩, hj₀, hsame, heq⟩ := stored_of_run hstored
  have hid : j₀.id = (jobHash c.now (j.assigned newID)).id := by
    rw [hj₀]
    rfl
  have hstate : (jobHash c.now (j.assigned newID)).state ≠ .active := by
    rcases jobHash_state c.now (j.assigned newID) with hstate | hstate <;> simp [hstate]
  rw [heq]
  rw [hid] at hlive hgone ⊢
  have hsame' : Rests _ s₁ _ := hlive.resting.of_same hsame.job hsame.active
  exact resting_place hsame'.resting ((congrFun hsame.job _).trans hgone) hstate

/-! ### The first claim -/

/-- The job that the first `Dequeue` returns, at `now`, of job `j` that was enqueued at `now₀`
under `id`. -/
def received (now₀ : ℤ) (id : String) (j : Job) (now : ℤ) (o : ClaimOpts) : Job where
  id := id
  queue := j.queue
  type := j.type
  payload := j.payload
  attempt := 1
  maxAttempts := if j.maxAttempts ≤ 0 then 25 else j.maxAttempts
  recoveries := 0
  state := .active
  owner := o.workerID
  uniqueKey := j.uniqueKey
  uniqueTTL := 0
  lastErr := ""
  enqueuedAt := now₀ * millisecond
  -- rounded down to the millisecond; the millisecond of the epoch is read as the zero time
  runAt := if unixMilli j.runAt = 0 then zeroTime else unixMilli j.runAt * millisecond
  startedAt := now * millisecond
  deadline := now * millisecond + milliseconds o.visibilityTimeout * millisecond

/-- The hash of the job that the first `Dequeue` returns. -/
def receivedHash (now₀ : ℤ) (j : Job) (now : ℤ) (o : ClaimOpts) : Hash :=
  claimed now o.workerID (milliseconds o.visibilityTimeout) (jobHash now₀ j)

section Received

variable {now₀ : ℤ} {newID : String} {j : Job} {o : ClaimOpts}

/-- The zero time is 0 in Redis, and a whole number of milliseconds. -/
theorem timeFromMs_msFromTime (t : Time) : timeFromMs (msFromTime t) =
    if unixMilli t = 0 then zeroTime else unixMilli t * millisecond := by
  by_cases ht : t = zeroTime
  · subst ht
    decide
  · rw [msFromTime, if_neg ht]
    rfl

theorem msFromTime_fits {t : Time}
    (ht : t = zeroTime ∨ -2 ^ 63 ≤ unixMilli t ∧ unixMilli t < 2 ^ 63) :
    -2 ^ 63 ≤ msFromTime t ∧ msFromTime t < 2 ^ 63 := by
  rw [msFromTime]
  split_ifs with hzero
  · decide
  · exact ht.resolve_left hzero

/-- A lease is asked for a positive time. -/
theorem visibilityTimeout_pos (hclaim : (claimNext s now o).1 = .ok h) :
    0 < o.visibilityTimeout := by
  rcases claimNext_script s now o with ⟨err, heq⟩ | ⟨-, hpos, -⟩
  · rw [heq] at hclaim
    cases hclaim
  · exact hpos

theorem decodeJob_receivedHash (h₀ : 0 < now₀) (hnow : 0 < now)
    (hvt : 0 ≤ milliseconds o.visibilityTimeout) (hid : (j.assigned newID).id ≠ "") :
    decodeJob (receivedHash now₀ (j.assigned newID) now o) =
      .ok (received now₀ (j.assigned newID).id j now o) := by
  have hdeadline : now + milliseconds o.visibilityTimeout ≠ 0 := by omega
  have hrunAt := timeFromMs_msFromTime j.runAt
  have hall : timeFromMs now₀ = now₀ * millisecond ∧ timeFromMs now = now * millisecond ∧
      timeFromMs (now + milliseconds o.visibilityTimeout) =
        now * millisecond + milliseconds o.visibilityTimeout * millisecond := by
    rw [timeFromMs, timeFromMs, timeFromMs, if_neg h₀.ne', if_neg hnow.ne', if_neg hdeadline]
    exact ⟨rfl, rfl, add_mul _ _ _⟩
  rw [decodeJob, if_neg (show (receivedHash now₀ (j.assigned newID) now o).id ≠ "" from hid)]
  simp only [receivedHash, claimed, jobHash, newHash, received, hall, Job.assigned, hrunAt]
  rfl

theorem fits_receivedHash (h₀ : 0 < now₀ ∧ now₀ < 2 ^ 53) (hnow : 0 < now)
    (hvt : 0 ≤ milliseconds o.visibilityTimeout)
    (hexact : now + milliseconds o.visibilityTimeout ≤ 2 ^ 53)
    (hrunAt : -2 ^ 63 ≤ msFromTime j.runAt ∧ msFromTime j.runAt < 2 ^ 63)
    (hmax : j.maxAttempts < 2 ^ 63) :
    Wire.Fits (receivedHash now₀ (j.assigned newID) now o) := by
  have hbudget : 0 < (j.assigned newID).maxAttempts ∧ (j.assigned newID).maxAttempts < 2 ^ 63 := by
    simp only [Job.assigned, defaultMaxAttempts]
    split_ifs <;> omega
  refine ⟨?_, ?_, ?_, ?_, hrunAt, ?_, ?_⟩ <;>
    simp only [receivedHash, claimed, jobHash, newHash] <;> omega

/-- **The bytes in Redis**, whether the job was promoted or not: the scripts write the hash that
the first `Dequeue` returns, and any listing of it decodes to the same job. -/
theorem wire_received (h₀ : 0 < now₀ ∧ now₀ < 2 ^ 53) (hnow : 0 < now)
    (hvt : 0 ≤ milliseconds o.visibilityTimeout)
    (hexact : now + milliseconds o.visibilityTimeout ≤ 2 ^ 53)
    (hrunAt : -2 ^ 63 ≤ msFromTime j.runAt ∧ msFromTime j.runAt < 2 ^ 63)
    {f : Fields} (hf : f = Wire.enqueueFields now₀ (Wire.enqueueArgs j) ∨
      f = Wire.promoteFields (Wire.enqueueFields now₀ (Wire.enqueueArgs j))) :
    Wire.dequeueFields now (Wire.dequeueArgs o) f = Wire.fields (receivedHash now₀ j now o) := by
  have hwritten := Wire.enqueueFields_eq h₀.1.le h₀.2 hrunAt
  have hattempt : -2 ^ 63 ≤ (0 : ℤ) ∧ (0 : ℤ) < 2 ^ 63 := by decide
  rcases hf with rfl | rfl
  · rw [hwritten]
    exact Wire.dequeueFields_eq hnow.le hvt hexact hattempt
  · rw [hwritten, Wire.promoteFields_eq]
    exact Wire.dequeueFields_eq hnow.le hvt hexact hattempt

end Received

/-- A job that was enqueued is claimed as it was enqueued. -/
theorem claimed_of_rests {j j₁ : Job} {o : ClaimOpts} {now₀ : ℤ} {s₀ : Store}
    (hrests : Rests s₀ s id) (he : s₀.job id = some ⟨jobHash now₀ j, none⟩)
    (hop : c.op = .dequeue o) (hclaim : (exec cfg s c).1 = .claimed j₁) (hid : j₁.id = id) :
    0 < o.visibilityTimeout ∧ decodeJob (receivedHash now₀ j c.now o) = .ok j₁ ∧
      (exec cfg s c).2.job id = some ⟨receivedHash now₀ j c.now o, none⟩ := by
  have hlive := hrests.trans (hrests.resting.live cfg.visible c.now)
  obtain ⟨h, hnext, hj⟩ := (claimed_iff hop).1 hclaim
  refine ⟨visibilityTimeout_pos hnext, ?_⟩
  have hexec : (exec cfg s c).2 = (claimNext (seen cfg s c) c.now o).2 := by
    rw [exec, hop]
    rfl
  rcases claimNext_resting hlive.resting c.now o with
    ⟨s₁, e, hrests', he', hnext', hjob⟩ | ⟨hother, -⟩
  · -- promotion changes what the claim overwrites
    have hhash : claimed c.now o.workerID (milliseconds o.visibilityTimeout) e.hash =
        receivedHash now₀ j c.now o := by
      rcases (hlive.trans hrests').job with hsame | ⟨e₀, he₀, hpromoted⟩
      · obtain rfl := Option.some.inj (he'.symm.trans (hsame.trans he))
        rfl
      · obtain rfl := Option.some.inj (he₀.symm.trans he)
        obtain rfl := Option.some.inj (he'.symm.trans hpromoted)
        rfl
    rw [hhash] at hnext' hjob
    obtain rfl := Except.ok.inj (hnext.symm.trans hnext')
    exact ⟨hj, hexec ▸ hjob⟩
  · exact absurd ((decodeJob_ok hj).2.1.symm.trans hid) (hother h hnext)

/-- **The envelope survives Redis.** In any run, take an `Enqueue` that stores a job under an ID
that no other `Enqueue` uses, and the first `Dequeue` that returns that job. What it returns is the
job as it was enqueued, with what the scripts fill in; and the hash that is then in Redis, byte
string by byte string, is what the scripts wrote, and decodes to that job in whatever order its
fields are listed.

The clock of the server is past the epoch and in the range where a double is exact; the maximum of
the attempts and the milliseconds of the run time are 64-bit integers, as they are in the source. -/
theorem envelope_survives {newID : String} {wall : Time} {j j₀ j₁ : Job} {o : ClaimOpts} {now₀ : ℤ}
    {s₀ : Store}
    (hrun : AnyRun cfg (newer ++ ⟨s₀, ⟨now₀, .enqueue newID wall (some j)⟩⟩ :: older) s)
    (hstored : (exec cfg s₀ ⟨now₀, .enqueue newID wall (some j)⟩).1 = .stored j₀)
    (hfresh : ∀ t ∈ newer ++ older, ¬ Stores cfg t j₀.id)
    (hclaim : (exec cfg s ⟨now, .dequeue o⟩).1 = .claimed j₁) (hid : j₁.id = j₀.id)
    (hfirst : ∀ t ∈ newer, ¬ Returns cfg t j₀.id)
    (h₀ : 0 < now₀ ∧ now₀ < 2 ^ 53) (hnow : 0 < now)
    (hexact : now + milliseconds o.visibilityTimeout ≤ 2 ^ 53) (hmax : j.maxAttempts < 2 ^ 63)
    (hrunAt : j.runAt = zeroTime ∨ -2 ^ 63 ≤ unixMilli j.runAt ∧ unixMilli j.runAt < 2 ^ 63) :
    j₀.id = (if j.id = "" then newID else j.id) ∧ j₁ = received now₀ j₀.id j now o ∧
    ∃ e, (exec cfg s ⟨now, .dequeue o⟩).2.job j₀.id = some e ∧
      (∀ f, f = Wire.enqueueFields now₀ (Wire.enqueueArgs (j.assigned newID)) ∨
          f = Wire.promoteFields (Wire.enqueueFields now₀ (Wire.enqueueArgs (j.assigned newID))) →
        Wire.dequeueFields now (Wire.dequeueArgs o) f = Wire.fields e.hash) ∧
      ∀ flat, (Wire.fields e.hash).Lists flat → Wire.decodeJob (flat.map some) = .ok j₁ := by
  simp only [List.forall_mem_append] at hfresh
  have hne : j₀.id ≠ "" := by
    obtain ⟨h, -, hj⟩ := (claimed_iff rfl).1 hclaim
    obtain ⟨hne, hj₁, -⟩ := decodeJob_ok hj
    rwa [← hid, hj₁]
  have hassigned : j₀.id = (j.assigned newID).id := by
    obtain ⟨_, _, _, ⟨⟩, rfl, -⟩ := stored_of_run hstored
    rfl
  -- from the start of the run to the `Enqueue`, and on to the `Dequeue`
  obtain ⟨hunused, hnone⟩ := unused_of_run hrun.of_append.1 hne hfresh.2
  obtain ⟨hresting, hjob⟩ := resting_of_stored hunused hnone rfl hstored
  have hrests := rests_of_run hrun hne hresting hfresh.1 hfirst
  obtain ⟨hpos, hdecode, hafter⟩ := claimed_of_rests hrests hjob rfl hclaim hid
  -- what was written, and what it says
  have hvt : 0 ≤ milliseconds o.visibilityTimeout :=
    Int.tdiv_nonneg (show (0 : ℤ) ≤ o.visibilityTimeout from hpos.le) (by decide)
  have hms : -2 ^ 63 ≤ msFromTime (j.assigned newID).runAt ∧
      msFromTime (j.assigned newID).runAt < 2 ^ 63 := msFromTime_fits hrunAt
  have hj₁ : j₁ = received now₀ j₀.id j now o := by
    rw [hassigned]
    rw [decodeJob_receivedHash h₀.1 hnow hvt (hassigned ▸ hne)] at hdecode
    exact (Except.ok.inj hdecode).symm
  refine ⟨hassigned, hj₁, _, hafter, fun f hf ↦ ?_, fun flat hflat ↦ ?_⟩
  · exact wire_received h₀ hnow hvt hexact hms hf
  · have hfits : Wire.Fits (receivedHash now₀ (j.assigned newID) now o) :=
      fits_receivedHash h₀ hnow hvt hexact (msFromTime_fits hrunAt) hmax
    have hid' : (receivedHash now₀ (j.assigned newID) now o).id ≠ "" := (decodeJob_ok hdecode).1
    obtain ⟨j', hj', hwire⟩ := Wire.decodeJob_fields hfits hid' hflat
    rw [hwire, Except.ok.inj (hj'.symm.trans hdecode)]

/-- A job for the fourth millisecond. -/
def laterJob : Job := { Job.plain "q" "t" 0 with payload := [0, 255], runAt := 3 * millisecond + 5 }

/-- It is enqueued, promoted and claimed. -/
theorem later_run : ∃ t s j₀ j₁, t.input.op = .promote 10 ∧
    AnyRun .default ([t] ++ [⟨empty, ⟨1, .enqueue "a" 0 (some laterJob)⟩⟩]) s ∧
    (exec .default empty ⟨1, .enqueue "a" 0 (some laterJob)⟩).1 = .stored j₀ ∧ j₀.id = "a" ∧
    (exec .default s ⟨5, .dequeue ⟨"w", ["q"], 7 * millisecond⟩⟩).1 = .claimed j₁ ∧
    j₁.id = "a" := by
  let c₀ : Call := ⟨1, .enqueue "a" 0 (some laterJob)⟩
  let c₁ : Call := ⟨4, .promote 10⟩
  let c₂ : Call := ⟨5, .dequeue ⟨"w", ["q"], 7 * millisecond⟩⟩
  let s₁ := (machine .default).next .empty c₀
  let s₂ := (machine .default).next s₁ c₁
  have hrun : AnyRun .default ([⟨s₁, c₁⟩] ++ [⟨empty, c₀⟩]) s₂ :=
    .step c₁ (.step c₀ .start trivial) trivial
  have hnext : (claimNext (seen .default s₂ c₂) 5 ⟨"w", ["q"], 7 * millisecond⟩).1.toOption.map
      Hash.id = some "a" := by decide +kernel
  rcases hclaim : (claimNext (seen .default s₂ c₂) 5 ⟨"w", ["q"], 7 * millisecond⟩).1 with err | h
  · rw [hclaim] at hnext
    cases hnext
  · rw [hclaim] at hnext
    have hid : h.id = "a" := Option.some.inj hnext
    obtain ⟨j₁, hj₁, hid₁⟩ := decodeJob_of_ne (hid ▸ (by decide : "a" ≠ "") : h.id ≠ "")
    exact ⟨_, s₂, _, j₁, rfl, hrun, rfl, rfl, (claimed_iff rfl).2 ⟨h, hclaim, hj₁⟩, hid₁.trans hid⟩

/-- Its envelope survives, with the fields listed as they were written. -/
theorem envelope_survives_promoted : ∃ newer s s' j₀ j₁,
    AnyRun .default (newer ++ [⟨empty, ⟨1, .enqueue "a" 0 (some laterJob)⟩⟩]) s ∧
    (exec .default empty ⟨1, .enqueue "a" 0 (some laterJob)⟩).1 = .stored j₀ ∧
    exec .default s ⟨5, .dequeue ⟨"w", ["q"], 7 * millisecond⟩⟩ = (.claimed j₁, s') ∧
    j₁ = received 1 "a" laterJob 5 ⟨"w", ["q"], 7 * millisecond⟩ ∧
    ∃ flat e, s'.job "a" = some e ∧ (Wire.fields e.hash).Lists flat ∧
      Wire.decodeJob (flat.map some) = .ok j₁ := by
  obtain ⟨t, s, j₀, j₁, hop, hrun, hstored, hid₀, hclaim, hid₁⟩ := later_run
  obtain ⟨-, hj₁, e, he, -, hdecode⟩ := envelope_survives hrun hstored
    (by simp [Stores, hop]) hclaim (hid₁.trans hid₀.symm) (by simp [Returns, Claimed, hop])
    (by decide) (by decide) (by decide) (by decide) (.inr (by decide))
  rw [hid₀] at hj₁ he
  have hlists := Fields.lists_set (Wire.pairs_nodup e.hash) (.refl _)
  exact ⟨[t], s, _, j₀, j₁, hrun, hstored, Prod.ext hclaim rfl, hj₁, _, e, he, hlists,
    hdecode _ hlists⟩

end TaskQueue.Redis
