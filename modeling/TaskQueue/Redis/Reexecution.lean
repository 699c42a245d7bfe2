import TaskQueue.Redis.Location

/-!
# Running `enqueue.lua` again

`Enqueue` writes the ID it picked back into the caller's job, so a producer that resubmits the same
job after an ambiguous error, and a client library that sends a timed-out script again, both run
`enqueue.lua` with an ID that is in use. The script does not ask: it overwrites the hash and adds
the ID to a ready list or to the delayed set, wherever else the ID already is.

* Over a job that is pending, in retry or dead, the ID ends up in **two places**, or twice in one
  list.
* Over an active job the **lease is gone** from the hash while the active set still lists it.
* Over a retained completed job the hash keeps **the expiry the ack gave it**, since `HSET` does not
  clear one, and the new job disappears with it.

What remains is exactly `Resubmittable`: the script refuses the job, the ID has no hash any more, or
the old job is still scheduled and the new one is too. `enqueueSafe_iff` says that nothing else is
safe, and `reexecution_safe` that runs which keep to it never show a job in two places.
-/

namespace TaskQueue.Redis

open Placement Script

namespace Store

variable {s s' : Store} {now : ℤ} {id : String} {h : Hash} {e : Entry}

/-- The ID occurs in exactly one place, and its hash is there and does not expire. -/
def InOnePlace (s : Store) (id : String) : Prop :=
  (∃ e, s.job id = some e ∧ e.expireAt = none) ∧
    ∃ p, ∀ p', s.mentions p' id = if p = p' then 1 else 0

/-- A lease on the job that there was in `s` is as it was in `s'`. -/
def LeaseKept (s s' : Store) (id : String) : Prop :=
  ∀ e, s.job id = some e → e.hash.state = .active →
    s'.job id = some e ∧
      (s'.active e.hash.queue).lookup id = (s.active e.hash.queue).lookup id

/-- A located job that is in a place is in one place. -/
theorem Located.inOnePlace (hs : Located s) (hhome : (s.home id).isSome) : s.InOnePlace id := by
  obtain ⟨p, hp⟩ := Option.isSome_iff_exists.1 hhome
  obtain ⟨e, he, hplace⟩ := Option.bind_eq_some_iff.1 hp
  have hstate : e.hash.state ≠ .completed := fun hdone ↦ by simp [placeOf, hdone] at hplace
  refine ⟨⟨e, he, hs.expireAt_eq he hstate⟩, p, fun p' ↦ ?_⟩
  rw [hs.exact id p', hp]
  simp only [Option.some.injEq]

theorem SameJobs.mentions (hsame : SameJobs s s') : s'.mentions = s.mentions := by
  funext p id
  rcases p with q | q | ⟨_ | _⟩ | _
  · show (s'.ready q).count id = (s.ready q).count id
    rw [hsame.ready]
  · simp only [Store.mentions, hsame.active]
  · show (if (s'.delayed.lookup id).isSome then 1 else 0) =
      if (s.delayed.lookup id).isSome then 1 else 0
    rw [hsame.delayed]
  · show (if (s'.retry.lookup id).isSome then 1 else 0) =
      if (s.retry.lookup id).isSome then 1 else 0
    rw [hsame.retry]
  · simp only [Store.mentions, hsame.dead]

/-! ### What `enqueue.lua` does to the places -/

/-- The place `enqueue.lua` adds the ID to. -/
def target (h : Hash) : Place :=
  if h.state = .scheduled then .wait .delayed else .ready h.queue

/-- No place loses the ID, its target has it, and a ready list gets it once more. -/
theorem mentions_place (s : Store) (h : Hash) :
    (∀ p, s.mentions p h.id ≤ (place s h).mentions p h.id) ∧
      (place s h).mentions (target h) h.id ≠ 0 ∧
      ∀ q, target h = .ready q → (place s h).mentions (.ready q) h.id =
        s.mentions (.ready q) h.id + 1 := by
  by_cases hstate : h.state = .scheduled
  · simp only [place, target, if_pos hstate]
    refine ⟨fun p ↦ ?_, by simp [mentions, waitSet], fun q hq ↦ by cases hq⟩
    rcases p with q | q | ⟨_ | _⟩ | _
    · exact le_refl _
    · exact le_refl _
    · show (if (s.delayed.lookup h.id).isSome then 1 else 0) ≤
        if ((s.delayed.insert h.id h.runAt).lookup h.id).isSome then 1 else 0
      rw [AList.lookup_insert, Option.isSome_some, if_pos rfl]
      split_ifs <;> simp
    · exact le_refl _
    · exact le_refl _
  · simp only [place, target, if_neg hstate]
    refine ⟨fun p ↦ ?_, by simp [mentions, hset, rpush], fun q hq ↦ ?_⟩
    · rcases p with q | q | ⟨_ | _⟩ | _
      · simp only [mentions, hset, rpush, count_update, List.count_append]
        split_ifs with hq
        · rw [hq]
          omega
        · exact le_refl _
      · exact le_refl _
      · exact le_refl _
      · exact le_refl _
      · exact le_refl _
    · cases hq
      simp [mentions, hset, rpush]

/-- A scheduled job can be scheduled again: its hash and its score are replaced. -/
theorem located_place_scheduled (hs : Located s) (he : s.job h.id = some e)
    (hold : e.hash.state = .scheduled) (hnew : h.state = .scheduled) (howner : h.owner = "") :
    Located (place s h) := by
  obtain ⟨hr, ha, hw, hd⟩ := hs.of_wait he (show e.hash.state = waitState .delayed from hold)
  have hretry : s.retry.lookup h.id = none := hw .retry (by decide)
  have hexp := hs.expireAt_eq he (by rw [hold]; decide)
  refine hs.of_frame (frame_place s h) ?_ fun p ↦ ?_
  · rw [job_place, he]
    rintro _ ⟨⟩
    simp [hnew, howner, hexp]
  · rw [home, job_place, Option.bind_some]
    simp only [place, if_pos hnew]
    rcases p with q | q | ⟨_ | _⟩ | _ <;>
      simp [mentions, placeOf, hset, waitSet, hnew, hr, ha, hretry, hd]

end Store

open Store

variable {s s₁ : Store} {now : ℤ} {id : String} {j : Job}

/-! ### When it is safe -/

/-- What running `enqueue.lua` must not do to the job `id`. -/
def EnqueueSafe (s s' : Store) (id : String) : Prop := s'.InOnePlace id ∧ LeaseKept s s' id

/-- The ID has no hash, or the job of that ID is scheduled and stays so. -/
def Vacant (s : Store) (now : ℤ) (j : Job) : Prop :=
  ∀ e, s.job j.id = some e → e.hash.state = .scheduled ∧ now < msFromTime j.runAt

theorem jobHash_scheduled_iff :
    (jobHash now j).state = .scheduled ↔ now < msFromTime j.runAt := by
  simp only [jobHash, newHash]
  split_ifs with hlt
  · simp [hlt]
  · simp [hlt]

/-- Storing a job under a vacant ID keeps every job in place. -/
theorem located_of_vacant (hs : Located s) (hsame : SameJobs s s₁) (hv : Vacant s now j) :
    Located (place s₁ (jobHash now j)) := by
  have hs₁ := (hsame.steps hs).located
  rcases he : s.job j.id with _ | e
  · have hid : s₁.job (jobHash now j).id = none := by rw [hsame.job]; exact he
    exact (moves_place hs₁ hid rfl (jobHash_state now j)).located
  · obtain ⟨hold, hnew⟩ := hv e he
    have hid : s₁.job (jobHash now j).id = some e := by rw [hsame.job]; exact he
    exact located_place_scheduled hs₁ hid hold (jobHash_scheduled_iff.2 hnew) rfl

/-- A job just stored is in a place. -/
theorem home_place (s : Store) (now : ℤ) (j : Job) :
    ((place s (jobHash now j)).home j.id).isSome := by
  have hjob := job_place s (jobHash now j)
  rcases jobHash_state now j with hstate | hstate
  · rw [home, show j.id = (jobHash now j).id from rfl, hjob]
    simp [placeOf, hstate]
  · rw [home, show j.id = (jobHash now j).id from rfl, hjob]
    simp [placeOf, hstate]

/-- **Exactly the vacant IDs can be stored under safely.** -/
theorem enqueueSafe_iff (hs : Located s) (hsame : SameJobs s s₁) :
    EnqueueSafe s (place s₁ (jobHash now j)) j.id ↔ Vacant s now j := by
  constructor
  · rintro ⟨⟨⟨e', he', hexp⟩, p, hp⟩, -⟩ e he
    obtain ⟨hle, htarget, hready⟩ := mentions_place s₁ (jobHash now j)
    have hjob := job_place s₁ (jobHash now j)
    simp only [show (jobHash now j).id = j.id from rfl, hsame.mentions] at hle htarget hready hjob
    -- the old hash had no expiry either, so the old job was in a place
    rw [he', hsame.job, he] at hjob
    obtain rfl := Option.some.inj hjob
    have hstate : e.hash.state ≠ .completed := fun hdone ↦ by
      have hsome := (hs.expiring _ e he).2 hdone
      rw [show e.expireAt = none from hexp] at hsome
      cases hsome
    have hhome : (s.home j.id).isSome := by
      have hknown := hs.known _ e he
      rw [home, he]
      cases hst : e.hash.state <;> simp_all [placeOf]
    obtain ⟨p₀, hp₀⟩ := Option.isSome_iff_exists.1 hhome
    have hold : s.mentions p₀ j.id = 1 := hs.exact.eq_one hp₀
    -- the old place and the target are both the one place there is
    have hp_old : p = p₀ := by
      by_contra hne
      have := hle p₀
      rw [hp p₀, if_neg hne, hold] at this
      omega
    have hp_target : p = target (jobHash now j) := by
      by_contra hne
      rw [hp, if_neg hne] at htarget
      exact htarget rfl
    -- a ready list would now have the ID twice
    have hsched : (jobHash now j).state = .scheduled := by
      by_contra hne
      have htwo := hready j.queue (by rw [target, if_neg hne]; rfl)
      have hpq : p = .ready j.queue := by rw [hp_target, target, if_neg hne]; rfl
      rw [hp, if_pos hpq, ← hpq, hp_old, hold] at htwo
      omega
    refine ⟨?_, jobHash_scheduled_iff.1 hsched⟩
    have hplace : placeOf e.hash = some (.wait .delayed) := by
      have hpd : p = .wait .delayed := by rw [hp_target, target, if_pos hsched]
      rw [← hpd, hp_old, ← hp₀, home, he, Option.bind_some]
    exact placeOf_eq_some_iff.1 hplace
  · intro hv
    refine ⟨(located_of_vacant hs hsame hv).inOnePlace (home_place s₁ now j), ?_⟩
    intro e he hact
    rw [(hv e he).1] at hact
    cases hact

/-! ### Runs -/

section Runs

variable (cfg : Config)

/-- The server time does not go back. Nothing else is asked of the clients. -/
def Ordered (h : List (Turn Store Call)) (_ : Store) (c : Call) : Prop :=
  ∀ t ∈ h, t.input.now ≤ c.now

/-- `Enqueue` turns the job down: it is invalid, or its unique key is held. -/
def Refused (s : Store) (j : Job) : Prop :=
  j.queue = "" ∨ j.type = "" ∨ 0 < uniqueTTL j ∧ (s.unique j.uniqueKey).isSome

/-- The job can be submitted, for the first time or again. -/
def Resubmittable (s : Store) (now : ℤ) (j : Job) : Prop := Refused s j ∨ Vacant s now j

/-- What a careful run may do next: a job is submitted only if it can be. -/
structure Careful (h : List (Turn Store Call)) (s : Store) (c : Call) : Prop where
  clock : Ordered h s c
  resubmit : ∀ newID wall j, c.op = .enqueue newID wall (some j) →
    Resubmittable (seen cfg s c) c.now (j.assigned newID)

/-- The job `id` was stored and has not been acked since. -/
def Outstanding : List (Turn Store Call) → String → Prop
  | [], _ => False
  | t :: h, id => Stores cfg t id ∨ Outstanding h id ∧ ¬ Acks cfg t id

variable {cfg} {h : List (Turn Store Call)} {c : Call}

/-- A refused job is not stored. -/
theorem Refused.eq_error {newID : String} (hr : Refused s (j.assigned newID)) (now : ℤ)
    (wall : Time) :
    ∃ err, enqueue s now newID wall (some j) = (.error err, s) := by
  rcases enqueue_outcome s now newID wall j with
    ⟨-, reason, heq⟩ | ⟨hvalid, ⟨u, -, -, heq⟩ | ⟨hfree, -⟩⟩
  · exact ⟨_, heq⟩
  · exact ⟨_, heq⟩
  · -- a valid job is refused because its key is held
    rcases hr with hqueue | htype | ⟨hwindow, hheld⟩
    · exact absurd (.inl hqueue) hvalid
    · exact absurd (.inr htype) hvalid
    · have hnone : s.unique (j.assigned newID).uniqueKey = none := hfree hwindow
      rw [hnone] at hheld
      cases hheld

/-- A careful `Enqueue` keeps every job in place; the job it stores, if any, and all the jobs that
were in a place before are in one after it. -/
theorem careful_enqueue (hs : Located s) (now : ℤ) (newID : String) (wall : Time) (o : Option Job)
    (hok : ∀ j, o = some j → Resubmittable s now (j.assigned newID)) :
    Located (enqueue s now newID wall o).2 ∧
      (∀ x, (s.home x).isSome → ((enqueue s now newID wall o).2.home x).isSome) ∧
      ∀ j', (enqueue s now newID wall o).1 = .ok j' →
        ((enqueue s now newID wall o).2.home j'.id).isSome := by
  rcases enqueue_cases s now newID wall o with ⟨err, heq⟩ | ⟨j, st, s₁, rfl, hsame, heq⟩
  · rw [heq]
    exact ⟨hs, fun _ hx ↦ hx, fun j' hj' ↦ by cases hj'⟩
  · have hv : Vacant s now (j.assigned newID) := by
      refine (hok j rfl).resolve_left fun hr ↦ ?_
      obtain ⟨err, herr⟩ := hr.eq_error now wall
      rw [heq] at herr
      cases herr
    have hframe := frame_place s₁ (jobHash now (j.assigned newID))
    rw [heq]
    refine ⟨located_of_vacant hs hsame hv, fun x hx ↦ ?_, fun j' hj' ↦ ?_⟩
    · by_cases hxj : x = (j.assigned newID).id
      · rw [hxj]
        exact home_place s₁ now _
      · have hhome : s₁.home x = s.home x := by rw [home, home, hsame.job]
        rw [hframe.home hxj, hhome]
        exact hx
    · cases hj'
      exact home_place s₁ now _

/-- **A careful run keeps every job in place**, and those that are not acked in one. -/
theorem located_of_careful (hrun : (machine cfg).Run (Careful cfg) h s) :
    Located s ∧ ∀ id, Outstanding cfg h id → (s.home id).isSome := by
  refine hrun.invariant (P := fun h s ↦ Located s ∧ ∀ id, Outstanding cfg h id → (s.home id).isSome)
    ⟨located_empty, fun _ ↦ False.elim⟩ ?_
  rintro h s ⟨now, op⟩ - ⟨hs, hout⟩ hok
  have hlive := hs.live cfg.visible now
  have hhome := hs.live_home cfg.visible now
  by_cases hop : ∃ newID wall o, op = .enqueue newID wall o
  · obtain ⟨newID, wall, o, rfl⟩ := hop
    obtain ⟨hloc, hkeep, hnew⟩ := careful_enqueue hlive.1 now newID wall o
      fun j hj ↦ hok.resubmit newID wall j (by rw [hj])
    refine ⟨hloc, fun id hid ↦ ?_⟩
    rcases hid with ⟨newID', wall', o', j', hop, hreply, rfl⟩ | ⟨hid, -⟩
    · refine hnew j' ?_
      cases hres : (enqueue (s.live cfg.visible now) now newID wall o).1 with
      | error err => simp [reply, exec, seen, run, hres, Reply.of] at hreply
      | ok j => simpa [reply, exec, seen, run, hres, Reply.of] using hreply
    · exact hkeep id (by rw [hhome]; exact hout id hid)
  · have hsafe : Safe (seen cfg s ⟨now, op⟩) op := by
      cases op with
      | enqueue newID wall o => exact absurd ⟨newID, wall, o, rfl⟩ hop
      | _ => trivial
    have hsteps : Steps (seen cfg s ⟨now, op⟩) (events cfg s ⟨now, op⟩) (exec cfg s ⟨now, op⟩).2 :=
      steps_exec hs hsafe
    refine ⟨hsteps.located, fun id hid ↦ ?_⟩
    rcases hid with ⟨newID, wall, o, -, heq, -⟩ | ⟨hid, hack⟩
    · exact absurd ⟨newID, wall, o, heq⟩ hop
    · show ((exec cfg s ⟨now, op⟩).2.home id).isSome
      rw [home_isSome_iff hsteps.located (.refl _)]
      refine hsteps.path.alive ?_ fun e he ↦ ?_
      · refine (home_isSome_iff hlive.1 (.refl _)).1 ?_
        rw [hhome]
        exact hout id hid
      · have hdid := mem_events_iff.1 he
        cases e with
        | acked w => exact absurd ⟨w, hdid⟩ hack
        | purged => exact hdid.elim
        | _ => rfl

/-- **Re-execution is safe in careful runs.** If every job was submitted only when it could be, then
a job that was stored and has not been acked since is in exactly one place and does not expire, no
`Enqueue` touched a lease, and the next `Enqueue` that stores a job does no harm to it exactly if
its ID is vacant. -/
theorem reexecution_safe (hrun : (machine cfg).Run (Careful cfg) h s) :
    (∀ id, Outstanding cfg h id → s.InOnePlace id) ∧
    (∀ t ∈ h, ∀ id, Stores cfg t id →
      LeaseKept (seen cfg t.before t.input) ((machine cfg).after t) id) ∧
    ∀ c newID wall j j', c.op = .enqueue newID wall (some j) → (exec cfg s c).1 = .stored j' →
      (EnqueueSafe (seen cfg s c) (exec cfg s c).2 j'.id ↔
        Vacant (seen cfg s c) c.now (j.assigned newID)) := by
  have hstep : ∀ {h s}, (machine cfg).Run (Careful cfg) h s → ∀ c newID wall o j',
      c.op = .enqueue newID wall o → (exec cfg s c).1 = .stored j' → ∃ j, o = some j ∧
      (EnqueueSafe (seen cfg s c) (exec cfg s c).2 j'.id ↔
        Vacant (seen cfg s c) c.now (j.assigned newID)) := by
    intro h s hrun c newID wall o j' hop hreply
    have hlive := ((located_of_careful hrun).1.live cfg.visible c.now).1
    rw [exec, hop] at hreply ⊢
    obtain ⟨j, st, s₁, rfl, rfl, hsame, heq⟩ := stored_of_run hreply
    rw [heq]
    exact ⟨j, rfl, enqueueSafe_iff hlive hsame⟩
  refine ⟨fun id hid ↦ ?_, fun t ht id hstores ↦ ?_, fun c newID wall j j' hop hreply ↦ ?_⟩
  · obtain ⟨hs, hout⟩ := located_of_careful hrun
    exact hs.inOnePlace (hout id hid)
  · obtain ⟨newer, older, rfl⟩ := List.append_of_mem ht
    obtain ⟨hprev, hok⟩ := hrun.of_append
    obtain ⟨newID, wall, o, j', hop, hreply, rfl⟩ := hstores
    obtain ⟨j, rfl, hiff⟩ := hstep hprev t.input newID wall o j' hop hreply
    refine (hiff.2 ((hok.resubmit newID wall j hop).resolve_left fun hr ↦ ?_)).2
    obtain ⟨err, herr⟩ := hr.eq_error t.input.now wall
    simp [reply, exec, hop, run, herr, Reply.of] at hreply
  · obtain ⟨_, ⟨⟩, hiff⟩ := hstep hrun c newID wall _ j' hop hreply
    exact hiff

/-- A job is scheduled and submitted again while it still is: the run is careful, and the job is in
one place. -/
theorem reexecution_safe_rescheduled : ∃ h s, (machine .default).Run (Careful .default) h s ∧
    Outstanding .default h "a" ∧ s.InOnePlace "a" := by
  have hrun : (machine .default).Run (Careful .default) _ _ :=
    .step ⟨1, .enqueue "" 0
        (some { Job.plain "q" "t" 1 with id := "a", runAt := 10 * millisecond })⟩
      (.step ⟨0, .enqueue "a" 0 (some { Job.plain "q" "t" 1 with runAt := 10 * millisecond })⟩
        .start ⟨by simp [Ordered], fun _ _ _ hop ↦ .inr fun e he ↦ by cases hop; cases he⟩)
      ⟨by simp [Ordered], fun _ _ _ hop ↦ .inr fun e he ↦ by cases hop; cases he; decide⟩
  refine ⟨_, _, hrun, ?out, (reexecution_safe hrun).1 "a" ?out⟩
  exact .inl ⟨_, _, _, _, rfl, rfl, rfl⟩

/-- **A resubmitted job loses its lease.** A job is enqueued and claimed for an hour, and one
millisecond later the producer submits it again: the script stores it, the worker's lease is gone
from the hash, and the ID is in the active set and in the ready list. -/
theorem reexecution_disturbs_lease : ∃ h s c j', (machine .default).Run Ordered h s ∧
    Ordered h s c ∧ c.op = .enqueue "" 0 (some { Job.plain "q" "t" 1 with id := "a" }) ∧
    (exec .default s c).1 = .stored j' ∧ j'.id = "a" ∧
    ¬ (exec .default s c).2.InOnePlace "a" ∧
    ¬ LeaseKept (seen .default s c) (exec .default s c).2 "a" := by
  have hrun : (machine .default).Run Ordered _ _ :=
    .step ⟨1, .dequeue ⟨"w", ["q"], hour⟩⟩
      (.step ⟨0, .enqueue "a" 0 (some (.plain "q" "t" 1))⟩ .start (by simp [Ordered]))
      (by simp [Ordered])
  refine ⟨_, _, ⟨2, .enqueue "" 0 (some { Job.plain "q" "t" 1 with id := "a" })⟩, _, hrun,
    by simp [Ordered], rfl, rfl, rfl, ?_, fun hkept ↦ ?_⟩
  · rintro ⟨-, p, hp⟩
    have hactive : p = .active "q" := by
      by_contra hne
      exact absurd (hp (.active "q")) (by rw [if_neg hne]; decide)
    have hready := hp (.ready "q")
    rw [hactive, if_neg (by decide)] at hready
    exact absurd hready (by decide)
  · exact absurd (hkept _ rfl rfl).1 (by decide)

end Runs

end TaskQueue.Redis
