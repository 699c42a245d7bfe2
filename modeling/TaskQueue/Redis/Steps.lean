import TaskQueue.Data.Placement
import TaskQueue.Redis.Machine

/-!
# What one job can go through in Redis

The counterpart of `TaskQueue.Memory.Steps` for the scripts: each of them is a sequence of moves of
single jobs, and each move comes with its frame, the location invariant after it and the event of
the lifecycle automaton it performs.

Two things are different here. There is an active set **for each queue**, so `dequeue.lua` and
`reap.lua` file a job under the queue whose list or set they found it in, while `ack.lua`,
`nack.lua`, `kill.lua` and `extend.lua` look it up under the queue its hash names; the invariant is
what makes the two the same. And hashes can expire: the invariant says that only completed jobs have
an expiry, so a hash that disappears takes no job out of any place (`Located.live`).
-/

namespace TaskQueue.Redis

open Script Placement

/-- The places a job ID can be in. -/
inductive Place
  | ready (queue : String)
  | active (queue : String)
  | wait (set : WaitSet)
  | dead
  deriving DecidableEq

/-- The place a hash's `state` field names. -/
def placeOf (h : Hash) : Option Place :=
  match h.state with
  | .pending => some (.ready h.queue)
  | .active => some (.active h.queue)
  | .scheduled => some (.wait .delayed)
  | .retry => some (.wait .retry)
  | .dead => some .dead
  | .none | .completed => none

/-- The state of the members of a wait set. -/
def waitState : WaitSet → State
  | .delayed => .scheduled
  | .retry => .retry

theorem placeOf_eq_some_iff {h : Hash} {p : Place} : placeOf h = some p ↔
    match p with
    | .ready q => h.state = .pending ∧ h.queue = q
    | .active q => h.state = .active ∧ h.queue = q
    | .wait set => h.state = waitState set
    | .dead => h.state = .dead := by
  rcases p with q | q | ⟨_ | _⟩ | _ <;> cases hstate : h.state <;>
    simp [placeOf, hstate, waitState]

namespace Store

/-- How often a place mentions an ID. -/
def mentions (s : Store) : Place → String → ℕ
  | .ready q, id => (s.ready q).count id
  | .active q, id => if ((s.active q).lookup id).isSome then 1 else 0
  | .wait set, id => if ((waitSet s set).lookup id).isSome then 1 else 0
  | .dead, id => if (s.dead.lookup id).isSome then 1 else 0

/-- The place the job `id` belongs in. -/
def home (s : Store) (id : String) : Option Place := (s.job id).bind fun e ↦ placeOf e.hash

/-- The location invariant. -/
structure Located (s : Store) : Prop where
  keyed : ∀ id e, s.job id = some e → e.hash.id = id
  known : ∀ id e, s.job id = some e → e.hash.state ≠ .none
  exact : Placement.Exact s.home s.mentions
  owned : ∀ id e, s.job id = some e → (e.hash.owner ≠ "" ↔ e.hash.state = .active)
  leased : ∀ id e, s.job id = some e → e.hash.state = .active →
    (s.active e.hash.queue).lookup id = some e.hash.deadline
  /-- Completed jobs, and no others, expire. -/
  expiring : ∀ id e, s.job id = some e → (e.expireAt.isSome ↔ e.hash.state = .completed)

/-! ### Frames -/

/-- What the store holds about every job but `id` is unchanged. -/
structure Frame (s s' : Store) (id : String) : Prop where
  job : ∀ x, x ≠ id → s'.job x = s.job x
  ready : ∀ q x, x ≠ id → (s'.ready q).count x = (s.ready q).count x
  active : ∀ q x, x ≠ id → (s'.active q).lookup x = (s.active q).lookup x
  wait : ∀ set x, x ≠ id → (waitSet s' set).lookup x = (waitSet s set).lookup x
  dead : ∀ x, x ≠ id → s'.dead.lookup x = s.dead.lookup x

variable {s s' s'' : Store} {now : ℤ} {id q w : String} {h : Hash} {e : Entry}

theorem Frame.home (f : Frame s s' id) {x : String} (hx : x ≠ id) : s'.home x = s.home x := by
  rw [Store.home, Store.home, f.job x hx]

theorem Frame.mentions (f : Frame s s' id) (p : Place) {x : String} (hx : x ≠ id) :
    s'.mentions p x = s.mentions p x := by
  cases p with
  | ready q => exact f.ready q x hx
  | active q => simp only [Store.mentions, f.active q x hx]
  | wait set => simp only [Store.mentions, f.wait set x hx]
  | dead => simp only [Store.mentions, f.dead x hx]

theorem Frame.life (f : Frame s s' id) {x : String} (hx : x ≠ id) : s'.life x = s.life x := by
  have hdelayed : s'.delayed.lookup x = s.delayed.lookup x := f.wait .delayed x hx
  have hretry : s'.retry.lookup x = s.retry.lookup x := f.wait .retry x hx
  simp only [Store.life, Store.phase, f.job x hx, hdelayed, hretry]

/-- **One job moves.** After a step about `id` the invariant is left to check for `id` alone. -/
theorem Located.of_frame (hs : Located s) (f : Frame s s' id)
    (hjob : ∀ e, s'.job id = some e → e.hash.id = id ∧ e.hash.state ≠ .none ∧
      (e.hash.owner ≠ "" ↔ e.hash.state = .active) ∧
      (e.hash.state = .active → (s'.active e.hash.queue).lookup id = some e.hash.deadline) ∧
      (e.expireAt.isSome ↔ e.hash.state = .completed))
    (hcount : ∀ p, s'.mentions p id = if s'.home id = some p then 1 else 0) : Located s' := by
  -- every field but `exact` says something about one job at a time
  have hfield : ∀ {P : String → Entry → Prop}, (∀ x e, x ≠ id → s.job x = some e → P x e) →
      (∀ e, s'.job id = some e → P id e) → ∀ x e, s'.job x = some e → P x e := by
    intro P hold hnew x e he
    by_cases hx : x = id
    · subst hx
      exact hnew e he
    · exact hold x e hx ((f.job x hx).symm.trans he)
  refine ⟨?_, ?_, ?_, ?_, ?_, ?_⟩
  · exact hfield (fun x e _ ↦ hs.keyed x e) fun e he ↦ (hjob e he).1
  · exact hfield (fun x e _ ↦ hs.known x e) fun e he ↦ (hjob e he).2.1
  · exact hs.exact.of_touch id (fun x hx ↦ f.home hx) (fun p x hx ↦ f.mentions p hx) hcount
  · exact hfield (fun x e _ ↦ hs.owned x e) fun e he ↦ (hjob e he).2.2.1
  · refine hfield (fun x e hx he hact ↦ ?_) fun e he ↦ (hjob e he).2.2.2.1
    rw [f.active _ x hx]
    exact hs.leased x e he hact
  · exact hfield (fun x e _ ↦ hs.expiring x e) fun e he ↦ (hjob e he).2.2.2.2

/-- What the invariant says about one ID, place by place. -/
theorem Located.counts (hs : Located s) (id : String) :
    (∀ q, (s.ready q).count id = if s.home id = some (.ready q) then 1 else 0) ∧
    (∀ q, ((s.active q).lookup id).isSome ↔ s.home id = some (.active q)) ∧
    (∀ set, ((waitSet s set).lookup id).isSome ↔ s.home id = some (.wait set)) ∧
    ((s.dead.lookup id).isSome ↔ s.home id = some .dead) := by
  have hset : ∀ {p : Place} {o : Option ℤ},
      (if o.isSome then 1 else 0) = (if s.home id = some p then 1 else 0) →
      (o.isSome ↔ s.home id = some p) := by
    intro p o hpo
    by_cases ho : o.isSome <;> by_cases hp : s.home id = some p <;> simp_all
  exact ⟨fun q ↦ hs.exact id (.ready q), fun q ↦ hset (hs.exact id (.active q)),
    fun set ↦ hset (hs.exact id (.wait set)), hset (hs.exact id .dead)⟩

/-- The ID of no job is nowhere. -/
theorem Located.absent (hs : Located s) (hid : s.home id = none) :
    (∀ q, (s.ready q).count id = 0) ∧ (∀ q, (s.active q).lookup id = none) ∧
      s.delayed.lookup id = none ∧ s.retry.lookup id = none ∧ s.dead.lookup id = none := by
  obtain ⟨hr, ha, hw, hd⟩ := hs.counts id
  have hdelayed := hw .delayed
  have hretry := hw .retry
  simp only [hid, waitSet, reduceCtorEq, iff_false, Option.not_isSome_iff_eq_none, if_false]
    at hr ha hdelayed hretry hd
  exact ⟨hr, ha, hdelayed, hretry, hd⟩

/-- A job is where its state says, and nowhere else. -/
theorem Located.present (hs : Located s) (he : s.job id = some e) {p : Place}
    (hp : placeOf e.hash = some p) :
    (∀ q, (s.ready q).count id = if p = .ready q then 1 else 0) ∧
    (∀ q, ((s.active q).lookup id).isSome ↔ p = .active q) ∧
    (∀ set, ((waitSet s set).lookup id).isSome ↔ p = .wait set) ∧
    ((s.dead.lookup id).isSome ↔ p = .dead) := by
  have hc := hs.counts id
  simpa [home, he, hp] using hc

/-- An active job is in the active set of its queue and nowhere else. -/
theorem Located.of_active (hs : Located s) (he : s.job id = some e)
    (hact : e.hash.state = .active) :
    (∀ q, (s.ready q).count id = 0) ∧
      (∀ q, e.hash.queue ≠ q → (s.active q).lookup id = none) ∧
      s.delayed.lookup id = none ∧ s.retry.lookup id = none ∧ s.dead.lookup id = none := by
  obtain ⟨hr, ha, hw, hd⟩ := hs.present he (p := .active e.hash.queue) (by simp [placeOf, hact])
  refine ⟨by simpa using hr, fun q hq ↦ ?_, by simpa [waitSet] using hw .delayed,
    by simpa [waitSet] using hw .retry, by simpa using hd⟩
  simpa [hq] using ha q

/-- The ID at the head of a ready list is a pending job of that queue. -/
theorem Located.of_head (hs : Located s) {rest : List String} (hq : s.ready q = id :: rest) :
    ∃ e, s.job id = some e ∧ e.hash.state = .pending ∧ e.hash.queue = q := by
  have hhome : s.home id = some (.ready q) :=
    hs.exact.home_eq (p := .ready q) (by simp [mentions, hq])
  obtain ⟨e, he, hplace⟩ := Option.bind_eq_some_iff.1 hhome
  exact ⟨e, he, placeOf_eq_some_iff.1 hplace⟩

/-- A pending job is in the ready list of its queue and nowhere else. -/
theorem Located.of_pending (hs : Located s) (he : s.job id = some e)
    (hpend : e.hash.state = .pending) :
    (∀ q, (s.ready q).count id = if e.hash.queue = q then 1 else 0) ∧
      (∀ q, (s.active q).lookup id = none) ∧
      s.delayed.lookup id = none ∧ s.retry.lookup id = none ∧ s.dead.lookup id = none := by
  obtain ⟨hr, ha, hw, hd⟩ := hs.present he (p := .ready e.hash.queue) (by simp [placeOf, hpend])
  exact ⟨by simpa using hr, by simpa using ha, by simpa [waitSet] using hw .delayed,
    by simpa [waitSet] using hw .retry, by simpa using hd⟩

/-- A member of an active set is an active job of that queue, and its score is its deadline. -/
theorem Located.of_lease (hs : Located s) {t : ℤ} (ht : (s.active q).lookup id = some t) :
    ∃ e, s.job id = some e ∧ e.hash.state = .active ∧ e.hash.queue = q ∧ e.hash.deadline = t := by
  have hhome : s.home id = some (.active q) := ((hs.counts id).2.1 q).1 (by rw [ht]; rfl)
  obtain ⟨e, he, hplace⟩ := Option.bind_eq_some_iff.1 hhome
  obtain ⟨hact, rfl⟩ := placeOf_eq_some_iff.1 hplace
  exact ⟨e, he, hact, rfl, Option.some.inj ((hs.leased id e he hact).symm.trans ht)⟩

/-- A member of a wait set is a job waiting there. -/
theorem Located.of_waitSet (hs : Located s) {set : WaitSet} {t : ℤ}
    (ht : (waitSet s set).lookup id = some t) :
    ∃ e, s.job id = some e ∧ e.hash.state = waitState set := by
  have hhome : s.home id = some (.wait set) := ((hs.counts id).2.2.1 set).1 (by rw [ht]; rfl)
  obtain ⟨e, he, hplace⟩ := Option.bind_eq_some_iff.1 hhome
  exact ⟨e, he, placeOf_eq_some_iff.1 hplace⟩

/-- A waiting job is in its wait set and nowhere else. -/
theorem Located.of_wait (hs : Located s) {set : WaitSet} (he : s.job id = some e)
    (hstate : e.hash.state = waitState set) :
    (∀ q, (s.ready q).count id = 0) ∧ (∀ q, (s.active q).lookup id = none) ∧
      (∀ set', set ≠ set' → (waitSet s set').lookup id = none) ∧ s.dead.lookup id = none := by
  obtain ⟨hr, ha, hw, hd⟩ :=
    hs.present he (p := .wait set) (placeOf_eq_some_iff.2 hstate)
  refine ⟨by simpa using hr, by simpa using ha, fun set' hne ↦ ?_, by simpa using hd⟩
  simpa [hne] using hw set'

/-- A job that is not leased has no owner. -/
theorem Located.owner_eq (hs : Located s) (he : s.job id = some e)
    (hstate : e.hash.state ≠ .active) : e.hash.owner = "" := by
  by_contra hne
  exact hstate ((hs.owned id e he).1 hne)

/-- A job that is not completed does not expire. -/
theorem Located.expireAt_eq (hs : Located s) (he : s.job id = some e)
    (hstate : e.hash.state ≠ .completed) : e.expireAt = none := by
  by_contra hne
  exact hstate ((hs.expiring id e he).1 (Option.isSome_iff_ne_none.2 hne))

/-! ### Moves -/

/-- Job `id` moves by event `e`, and the rest of the store's jobs stay as they are. -/
structure Moves (s : Store) (id : String) (ev : Event) (s' : Store) : Prop where
  frame : Frame s s' id
  located : Located s'
  life : ∃ o, Life.advance spent (s.life id) ev = some o ∧ Life.Shown o (s'.life id)

theorem life_eq_some (he : s.job id = some e) :
    s.life id = some ⟨e.hash.queue, e.hash.maxAttempts, e.hash.attempt, e.hash.recoveries,
      s.phase id e.hash⟩ := by
  rw [life, he]
  rfl

theorem life_eq_none (he : s.job id = none) : s.life id = none := by
  rw [life, he]
  rfl

/-- The hash is replaced and its expiry stays. -/
theorem job_place (s : Store) (h : Hash) :
    (place s h).job h.id = some ⟨h, (s.job h.id).bind Entry.expireAt⟩ := by
  rw [place]
  split_ifs
  · exact Function.update_self _ _ _
  · exact Function.update_self _ _ _

/-- Placing a job, wherever it goes, touches no other one. -/
theorem frame_place (s : Store) (h : Hash) : Frame s (place s h) h.id := by
  by_cases hstate : h.state = .scheduled
  · simp only [place, if_pos hstate]
    refine ⟨fun x hx ↦ Function.update_of_ne hx _ _, fun _ _ _ ↦ rfl, fun _ _ _ ↦ rfl,
      fun set x hx ↦ ?_, fun _ _ ↦ rfl⟩
    cases set with
    | delayed => exact AList.lookup_insert_ne hx
    | retry => rfl
  · simp only [place, if_neg hstate]
    exact ⟨fun x hx ↦ Function.update_of_ne hx _ _,
      fun q x hx ↦ by simp +contextual [rpush, hset, count_update, Ne.symm hx],
      fun _ _ _ ↦ rfl, fun set _ _ ↦ by cases set <;> rfl, fun _ _ ↦ rfl⟩

/-- A new job is stored. -/
theorem moves_place (hs : Located s) (hid : s.job h.id = none) (howner : h.owner = "")
    (hstate : h.state = .scheduled ∨ h.state = .pending) :
    Moves s h.id (.enqueued (newLife h)) (place s h) := by
  obtain ⟨hr, ha, hdelayed, hretry, hd⟩ :=
    hs.absent (show s.home h.id = none by rw [home, hid]; rfl)
  have hframe := frame_place s h
  have hjob : (place s h).job h.id = some ⟨h, none⟩ := by rw [job_place, hid, Option.bind_none]
  rcases hstate with hstate | hstate
  · refine ⟨hframe, hs.of_frame hframe ?_ fun p ↦ ?_, ?_⟩
    · rw [hjob]
      rintro _ ⟨⟩
      simp [hstate, howner]
    · simp only [place, if_pos hstate]
      rcases p with q | q | ⟨_ | _⟩ | _ <;>
        simp [mentions, home, placeOf, hset, waitSet, hstate, hr, ha, hretry, hd]
    · simp [life, phase, place, hset, hid, hstate, newLife, Life.advance, Life.IsNew, Life.Shown]
  · have hne : h.state ≠ .scheduled := by rw [hstate]; decide
    refine ⟨hframe, hs.of_frame hframe ?_ fun p ↦ ?_, ?_⟩
    · rw [hjob]
      rintro _ ⟨⟩
      simp [hstate, howner]
    · simp only [place, if_neg hne]
      rcases p with q | q | ⟨_ | _⟩ | _ <;>
        simp [mentions, home, placeOf, hset, rpush, waitSet, hstate, count_update, hr, ha,
          hdelayed, hretry, hd]
    · simp [life, phase, place, hset, rpush, hid, hstate, newLife, Life.advance, Life.IsNew,
        Life.Shown]

/-- The head of a ready list is claimed. -/
theorem moves_claim (hs : Located s) {rest : List String} {vt : ℤ} (hq : s.ready q = id :: rest)
    (he : s.job id = some e) (hw : w ≠ "") :
    Moves s id (.claimed w (now + vt)) (claim (s.lpop q) now w vt q id e.hash) := by
  obtain ⟨e', he', hpend, hqueue⟩ := hs.of_head hq
  obtain rfl : e = e' := Option.some.inj (he.symm.trans he')
  obtain ⟨hr, ha, hdelayed, hretry, hd⟩ := hs.of_pending he hpend
  have hrest : rest.count id = 0 := by simpa [hq, hqueue] using hr q
  have hexp := hs.expireAt_eq he (by rw [hpend]; decide)
  refine ⟨?f, hs.of_frame ?f ?_ fun p ↦ ?_, ?_⟩
  case f =>
    refine ⟨fun x hx ↦ Function.update_of_ne hx _ _, fun q' x hx ↦ ?_, fun q' x hx ↦ ?_,
      fun set _ _ ↦ by cases set <;> rfl, fun _ _ ↦ rfl⟩
    · show (Function.update s.ready q (s.ready q).tail q').count x = _
      rw [count_update]
      split
      · next hqq => simp [← hqq, hq, Ne.symm hx]
      · rfl
    · show (Function.update s.active q _ q').lookup x = _
      rw [Table.lookup_update]
      split
      · next hqq =>
        subst hqq
        exact AList.lookup_insert_ne hx
      · rfl
  · simp only [claim, zaddActive, lpop, hset, Function.update_self, he]
    rintro _ ⟨⟩
    simp [claimed, hs.keyed id e he, hw, hqueue, hexp]
  · rcases p with q' | q' | ⟨_ | _⟩ | _
    · by_cases hqq : q = q'
      · subst hqq
        simp [mentions, home, placeOf, claim, claimed, zaddActive, lpop, hset, hq, hrest]
      · simp [mentions, home, placeOf, claim, claimed, zaddActive, lpop, hset, count_update, hr,
          hqueue, hqq]
    · by_cases hqq : q = q'
      · subst hqq
        simp [mentions, home, placeOf, claim, claimed, zaddActive, lpop, hset, hqueue]
      · simp [mentions, home, placeOf, claim, claimed, zaddActive, lpop, hset,
          Table.lookup_update, ha, hqueue, hqq]
    · simp [mentions, home, placeOf, claim, claimed, zaddActive, lpop, hset, waitSet, hdelayed]
    · simp [mentions, home, placeOf, claim, claimed, zaddActive, lpop, hset, waitSet, hretry]
    · simp [mentions, home, placeOf, claim, claimed, zaddActive, lpop, hset, hd]
  · simp [life, phase, claim, claimed, zaddActive, lpop, hset, he, hpend, Life.advance, Life.Shown]

/-- Taking a member out of an active set concerns no other member. -/
theorem lookup_zremActive_of_ne {x : String} (hx : x ≠ id) (q q' : String) :
    ((s.zremActive q id).active q').lookup x = (s.active q').lookup x := by
  rw [zremActive, Table.lookup_update]
  split
  · next hq =>
    subst hq
    exact AList.lookup_erase_ne hx
  · rfl

/-- An active job taken out of the active set of its queue is in none. -/
theorem Located.lookup_zremActive (hs : Located s) (he : s.job id = some e)
    (hact : e.hash.state = .active) (q : String) :
    ((s.zremActive e.hash.queue id).active q).lookup id = none := by
  rw [zremActive, Table.lookup_update]
  split
  · exact AList.lookup_erase _ _
  · next hq => exact (hs.of_active he hact).2.1 q hq

/-- A claim is settled and the hash kept until it expires. -/
theorem moves_complete (hs : Located s) (he : s.job id = some e) (hact : e.hash.state = .active)
    (n t : ℤ) :
    Moves s id (.acked e.hash.owner)
      (({ s.zremActive e.hash.queue id with processed := n }.hset id
        { e.hash with state := .completed, owner := "" }).pexpire id t) := by
  obtain ⟨hr, -, hdelayed, hretry, hd⟩ := hs.of_active he hact
  have ha := hs.lookup_zremActive he hact
  refine ⟨?f, hs.of_frame ?f ?_ fun p ↦ ?_, ?_⟩
  case f =>
    exact ⟨fun x hx ↦ by simp [pexpire, hset, zremActive, hx], fun _ _ _ ↦ rfl,
      fun q x hx ↦ lookup_zremActive_of_ne hx _ q, fun set _ _ ↦ by cases set <;> rfl,
      fun _ _ ↦ rfl⟩
  · simp only [pexpire, hset, Function.update_self, Option.map_some]
    rintro _ ⟨⟩
    simp [hs.keyed id e he]
  · rcases p with q | q | ⟨_ | _⟩ | _
    · simp [mentions, home, placeOf, pexpire, hset, zremActive, hr]
    · simp [mentions, home, placeOf, pexpire, hset, ha]
    · simp [mentions, home, placeOf, pexpire, hset, waitSet, zremActive, hdelayed]
    · simp [mentions, home, placeOf, pexpire, hset, waitSet, zremActive, hretry]
    · simp [mentions, home, placeOf, pexpire, hset, zremActive, hd]
  · simp [life, phase, pexpire, hset, he, hact, Life.advance, Life.Shown]

/-- A claim is settled and the hash deleted. -/
theorem moves_delete (hs : Located s) (he : s.job id = some e) (hact : e.hash.state = .active)
    (n : ℤ) :
    Moves s id (.acked e.hash.owner)
      ({ s.zremActive e.hash.queue id with processed := n }.del id) := by
  obtain ⟨hr, -, hdelayed, hretry, hd⟩ := hs.of_active he hact
  have ha := hs.lookup_zremActive he hact
  refine ⟨?f, hs.of_frame ?f ?_ fun p ↦ ?_, ?_⟩
  case f =>
    exact ⟨fun x hx ↦ Function.update_of_ne hx _ _, fun _ _ _ ↦ rfl,
      fun q x hx ↦ lookup_zremActive_of_ne hx _ q, fun set _ _ ↦ by cases set <;> rfl,
      fun _ _ ↦ rfl⟩
  · simp [del]
  · rcases p with q | q | ⟨_ | _⟩ | _
    · simp [mentions, home, del, zremActive, hr]
    · simp [mentions, home, del, ha]
    · simp [mentions, home, del, waitSet, zremActive, hdelayed]
    · simp [mentions, home, del, waitSet, zremActive, hretry]
    · simp [mentions, home, del, zremActive, hd]
  · simp [life, phase, del, he, hact, Life.advance, Life.Shown]

/-- A lease ends and the job is dead-lettered. The ways there differ only in the event and in what
they leave in the hash. -/
theorem moves_dead (hs : Located s) (he : s.job id = some e) (hact : e.hash.state = .active)
    {ev : Event} (hid : h.id = id)
    (hev : Life.advance spent (s.life id) ev =
      some (some ⟨h.queue, h.maxAttempts, h.attempt, h.recoveries, .dead⟩)) :
    Moves s id ev (deadLetter (s.zremActive e.hash.queue id) now id h) := by
  obtain ⟨hr, -, hdelayed, hretry, hd⟩ := hs.of_active he hact
  have ha := hs.lookup_zremActive he hact
  have hexp := hs.expireAt_eq he (by rw [hact]; decide)
  refine ⟨?f, hs.of_frame ?f ?_ fun p ↦ ?_, _, hev, .inl ?_⟩
  case f =>
    refine ⟨fun x hx ↦ Function.update_of_ne hx _ _, fun _ _ _ ↦ rfl,
      fun q x hx ↦ lookup_zremActive_of_ne hx _ q, fun set _ _ ↦ by cases set <;> rfl,
      fun x hx ↦ AList.lookup_insert_ne (by rwa [hid])⟩
  · simp only [deadLetter, hset, Function.update_self, zremActive, he]
    rintro _ ⟨⟩
    simp [hid, hexp]
  · rcases p with q | q | ⟨_ | _⟩ | _
    · simp [mentions, home, placeOf, deadLetter, hset, zremActive, hr]
    · simp [mentions, home, placeOf, deadLetter, hset, ha]
    · simp [mentions, home, placeOf, deadLetter, hset, waitSet, zremActive, hdelayed]
    · simp [mentions, home, placeOf, deadLetter, hset, waitSet, zremActive, hretry]
    · simp [mentions, home, placeOf, deadLetter, hset, hid]
  · simp [life, phase, deadLetter, hset]

/-- A failed attempt is parked in the retry set. -/
theorem moves_retry (hs : Located s) (he : s.job id = some e) (hact : e.hash.state = .active)
    (hleft : spent e.hash.attempt e.hash.maxAttempts = false) (retryAt : ℤ) (reason : String) :
    Moves s id (.nacked e.hash.owner retryAt)
      { (s.zremActive e.hash.queue id).hset id
          { e.hash with lastErr := reason, owner := "", state := .retry } with
        retry := s.retry.insert id retryAt } := by
  obtain ⟨hr, -, hdelayed, hretry, hd⟩ := hs.of_active he hact
  have ha := hs.lookup_zremActive he hact
  have hexp := hs.expireAt_eq he (by rw [hact]; decide)
  refine ⟨?f, hs.of_frame ?f ?_ fun p ↦ ?_, ?_⟩
  case f =>
    refine ⟨fun x hx ↦ Function.update_of_ne hx _ _, fun _ _ _ ↦ rfl,
      fun q x hx ↦ lookup_zremActive_of_ne hx _ q, fun set x hx ↦ ?_, fun _ _ ↦ rfl⟩
    cases set with
    | delayed => rfl
    | retry => exact AList.lookup_insert_ne hx
  · simp only [hset, Function.update_self, zremActive, he]
    rintro _ ⟨⟩
    simp [hs.keyed id e he, hexp]
  · rcases p with q | q | ⟨_ | _⟩ | _
    · simp [mentions, home, placeOf, hset, zremActive, hr]
    · simp [mentions, home, placeOf, hset, ha]
    · simp [mentions, home, placeOf, hset, waitSet, zremActive, hdelayed]
    · simp [mentions, home, placeOf, hset, waitSet]
    · simp [mentions, home, placeOf, hset, zremActive, hd]
  · simp [life, phase, hset, he, hact, Life.advance, Life.Shown, Life.fallTo, hleft]

/-- A lease is renewed. -/
theorem moves_renew (hs : Located s) (he : s.job id = some e) (hact : e.hash.state = .active)
    (deadline : ℤ) :
    Moves s id (.extended e.hash.owner deadline) (renew s id e.hash deadline) := by
  obtain ⟨hr, ha, hdelayed, hretry, hd⟩ := hs.of_active he hact
  have hexp := hs.expireAt_eq he (by rw [hact]; decide)
  refine ⟨?f, hs.of_frame ?f ?_ fun p ↦ ?_, ?_⟩
  case f =>
    refine ⟨fun x hx ↦ Function.update_of_ne hx _ _, fun _ _ _ ↦ rfl, fun q x hx ↦ ?_,
      fun set _ _ ↦ by cases set <;> rfl, fun _ _ ↦ rfl⟩
    show (Function.update s.active e.hash.queue _ q).lookup x = _
    rw [Table.lookup_update]
    split
    · next hq =>
      subst hq
      exact AList.lookup_insert_ne hx
    · rfl
  · simp only [renew, zaddActive, hset, Function.update_self, he]
    rintro _ ⟨⟩
    simp [hs.keyed id e he, hact, (hs.owned id e he).2 hact, hexp]
  · rcases p with q | q | ⟨_ | _⟩ | _
    · simp [mentions, home, placeOf, renew, zaddActive, hset, hact, hr]
    · by_cases hq : e.hash.queue = q
      · subst hq
        simp [mentions, home, placeOf, renew, zaddActive, hset, hact]
      · simp [mentions, home, placeOf, renew, zaddActive, hset, hact, Table.lookup_update, hq,
          ha q hq]
    · simp [mentions, home, placeOf, renew, zaddActive, hset, hact, waitSet, hdelayed]
    · simp [mentions, home, placeOf, renew, zaddActive, hset, hact, waitSet, hretry]
    · simp [mentions, home, placeOf, renew, zaddActive, hset, hact, hd]
  · simp [life, phase, renew, zaddActive, hset, he, hact, Life.advance, Life.Shown]

/-- An expired lease is ended. The job is filed under the queue whose active set it was found in. -/
theorem moves_recover (hs : Located s) (he : s.job id = some e) (hact : e.hash.state = .active)
    (hexp : e.hash.deadline ≤ now) :
    Moves s id (.reaped now)
      (recover (s.zremActive e.hash.queue id) now e.hash.queue id e.hash) := by
  rcases hspent : spent e.hash.attempt e.hash.maxAttempts with _ | _
  · obtain ⟨hr, -, hdelayed, hretry, hd⟩ := hs.of_active he hact
    have ha := hs.lookup_zremActive he hact
    have hexpire := hs.expireAt_eq he (by rw [hact]; decide)
    simp only [recover, hspent, Bool.false_eq_true, if_false]
    refine ⟨?f, hs.of_frame ?f ?_ fun p ↦ ?_, ?_⟩
    case f =>
      exact ⟨fun x hx ↦ Function.update_of_ne hx _ _,
        fun q x hx ↦ by simp +contextual [lpush, hset, zremActive, count_update, Ne.symm hx],
        fun q x hx ↦ lookup_zremActive_of_ne hx _ q, fun set _ _ ↦ by cases set <;> rfl,
        fun _ _ ↦ rfl⟩
    · simp only [lpush, hset, Function.update_self, zremActive, he]
      rintro _ ⟨⟩
      simp [hs.keyed id e he, hexpire]
    · rcases p with q | q | ⟨_ | _⟩ | _
      · simp [mentions, home, placeOf, lpush, hset, zremActive, count_update, hr]
      · simp [mentions, home, placeOf, lpush, hset, ha]
      · simp [mentions, home, placeOf, lpush, hset, waitSet, zremActive, hdelayed]
      · simp [mentions, home, placeOf, lpush, hset, waitSet, zremActive, hretry]
      · simp [mentions, home, placeOf, lpush, hset, zremActive, hd]
    · simp [life, phase, lpush, hset, he, hact, Life.advance, Life.Shown, Life.fallTo, hexp,
        hspent]
  · -- `reap.lua` dead-letters with the member it fetched, which is the ID in the hash
    have hrecover : recover (s.zremActive e.hash.queue id) now e.hash.queue id e.hash =
        deadLetter (s.zremActive e.hash.queue id) now id
          { e.hash with
            recoveries := e.hash.recoveries + 1
            lastErr := orphaned e.hash.attempt } := by
      simp only [recover, hspent, if_true, deadLetter, hs.keyed id e he]
    rw [hrecover]
    refine moves_dead hs he hact ?_ ?_
    · exact hs.keyed id e he
    · simp [life_eq_some he, phase, hact, Life.advance, Life.fallTo, hexp, hspent]

/-- A due job is promoted. -/
theorem moves_promote (hs : Located s) {set : WaitSet} {t : ℤ}
    (hin : (waitSet s set).lookup id = some t) (he : s.job id = some e) (ht : t ≤ now) :
    Moves s id (.promoted now) (promoteJob (zremWait s set id) id e.hash) := by
  obtain ⟨e', he', hstate⟩ := hs.of_waitSet hin
  obtain rfl : e = e' := Option.some.inj (he.symm.trans he')
  obtain ⟨hr, ha, hother, hd⟩ := hs.of_wait he hstate
  have hexp := hs.expireAt_eq he (by rw [hstate]; cases set <;> decide)
  refine ⟨?f, hs.of_frame ?f ?_ fun p ↦ ?_, ?_⟩
  case f =>
    refine ⟨fun x hx ↦ ?_, fun q x hx ↦ ?_, fun q x hx ↦ ?_, fun set' x hx ↦ ?_, fun x hx ↦ ?_⟩
    · simp [promoteJob, rpush, hset, hx]
    · simp +contextual [promoteJob, rpush, hset, count_update, Ne.symm hx]
    · simp [promoteJob, rpush, hset]
    · rw [waitSet_promoteJob, if_neg fun h ↦ hx h.1]
    · simp [promoteJob, rpush, hset]
  · simp only [promoteJob, zremWait_job, rpush, hset, Function.update_self, he]
    rintro _ ⟨⟩
    simp [hs.keyed id e he, hexp]
  · rcases p with q | q | set' | _
    · simp [mentions, home, placeOf, promoteJob, rpush, hset, count_update, hr]
    · simp [mentions, home, placeOf, promoteJob, rpush, hset, ha]
    · have hgone : (waitSet (promoteJob (zremWait s set id) id e.hash) set').lookup id = none := by
        rw [waitSet_promoteJob]
        split_ifs with hset'
        · rfl
        · exact hother set' fun h ↦ hset' ⟨rfl, h.symm⟩
      rw [mentions, hgone]
      simp [home, placeOf, promoteJob, rpush, hset]
    · simp [mentions, home, placeOf, promoteJob, rpush, hset, hd]
  · cases set with
    | delayed =>
      have hin : s.delayed.lookup id = some t := hin
      have hstate : e.hash.state = .scheduled := hstate
      simp [life, phase, promoteJob, rpush, hset, he, hstate, hin, ht, Life.advance, Life.Shown]
    | retry =>
      have hin : s.retry.lookup id = some t := hin
      have hstate : e.hash.state = .retry := hstate
      simp [life, phase, promoteJob, rpush, hset, he, hstate, hin, ht, Life.advance, Life.Shown]

/-! ### Expiry -/

/-- The only hashes that expire are those of completed jobs. -/
theorem Located.live_job (hs : Located s) (visible : ℤ → ℤ → Bool) (now : ℤ) (id : String) :
    (s.live visible now).job id = s.job id ∨
      (s.live visible now).job id = none ∧ ∃ e, s.job id = some e ∧ e.hash.state = .completed := by
  rcases he : s.job id with _ | e
  · exact .inl (by rw [Store.live]; simp [he])
  · by_cases hvis : e.expireAt.all (visible now)
    · exact .inl (by rw [Store.live]; simp [he, hvis])
    · refine .inr ⟨by rw [Store.live]; simp [he, hvis], e, rfl, (hs.expiring id e he).1 ?_⟩
      rcases hexp : e.expireAt with _ | t
      · simp [hexp] at hvis
      · rfl

theorem Located.live_home (hs : Located s) (visible : ℤ → ℤ → Bool) (now : ℤ) :
    (s.live visible now).home = s.home := by
  funext id
  rcases hs.live_job visible now id with h | ⟨h, e, he, hstate⟩
  · rw [home, home, h]
  · rw [home, home, h, he]
    simp [placeOf, hstate]

/-- **Expiry moves no job.** Only completed jobs expire, and they are nowhere. -/
theorem Located.live (hs : Located s) (visible : ℤ → ℤ → Bool) (now : ℤ) :
    Located (s.live visible now) ∧
      ∀ id, Life.Shown (s.life id) ((s.live visible now).life id) := by
  have hkeep : ∀ id e, (s.live visible now).job id = some e → s.job id = some e :=
    fun id e he ↦ (Option.filter_eq_some_iff.1 he).1
  refine ⟨⟨fun id e he ↦ hs.keyed id e (hkeep id e he), fun id e he ↦ hs.known id e (hkeep id e he),
    ?_, fun id e he ↦ hs.owned id e (hkeep id e he), fun id e he ↦ hs.leased id e (hkeep id e he),
    fun id e he ↦ hs.expiring id e (hkeep id e he)⟩, fun id ↦ ?_⟩
  · rw [hs.live_home]
    exact hs.exact
  · rcases hs.live_job visible now id with h | ⟨h, e, he, hstate⟩
    · exact .inl (by simp only [life, h]; rfl)
    · exact .inr ⟨life_eq_none h, _, life_eq_some he, by simp [phase, hstate]⟩

end Store

end TaskQueue.Redis
