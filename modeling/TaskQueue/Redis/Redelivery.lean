import TaskQueue.Delivery

/-!
# What a delivery carries

A job is delivered again and again: its handler fails and it is retried, its worker dies and it is
recovered, and in between it is claimed, renewed, promoted and reported on by anyone. A handler is
given the whole job each time, so it matters that every delivery carries the job as it was enqueued,
and that what is told about the earlier attempts is so.

The scripts write a hash field by field, and what they do to one is little (`Evolves`): they never
write the fields of the **envelope**, and the text of the last error is written by a nack alone, as
long as the job is not dead. The counters are those of the job's life, and count the claims and the
recoveries of the run. So the job that a `Dequeue` returns is a **function of the run**: of the
enqueue that stored it, of how often it was claimed and recovered since, and of the reason of its
latest nack (`delivery_determined`).
-/

namespace TaskQueue.Redis

open Keyed Store Script

variable {cfg : Config} {s s' s'' : Store} {c : Call} {t : Turn Store Call}
  {h : List (Turn Store Call)} {id w : String} {e e' : Entry} {now : ℤ}

/-! ### What a script makes of a hash -/

/-- The fields of a hash that only `enqueue.lua` writes. -/
structure Envelope where
  id : String
  queue : String
  type : String
  payload : List UInt8
  maxAttempts : ℤ
  uniqueKey : String
  enqueuedAt : ℤ
  runAt : ℤ

/-- The envelope in a hash. -/
def Hash.envelope (h : Hash) : Envelope :=
  ⟨h.id, h.queue, h.type, h.payload, h.maxAttempts, h.uniqueKey, h.enqueuedAt, h.runAt⟩

/-- One hash comes from another by scripts other than `enqueue.lua` and `nack.lua`. -/
structure Evolves (h h' : Hash) : Prop where
  envelope : h'.envelope = h.envelope
  lastErr : h'.state = .dead ∨ h.state ≠ .dead ∧ h'.lastErr = h.lastErr

theorem Evolves.refl (h : Hash) : Evolves h h := by
  refine ⟨rfl, ?_⟩
  by_cases hdead : h.state = .dead
  · exact .inl hdead
  · exact .inr ⟨hdead, rfl⟩

theorem Evolves.trans {h h' h'' : Hash} (hfirst : Evolves h h') (hsecond : Evolves h' h'') :
    Evolves h h'' := by
  refine ⟨hsecond.envelope.trans hfirst.envelope, ?_⟩
  rcases hsecond.lastErr with hdead | ⟨hlive, hsame⟩
  · exact .inl hdead
  · obtain ⟨hlive', hsame'⟩ := hfirst.lastErr.resolve_left hlive
    exact .inr ⟨hlive', hsame.trans hsame'⟩

/-- Every hash in a store comes from one under the same ID in another store. -/
def Carried (s s' : Store) : Prop :=
  ∀ id e', s'.job id = some e' → ∃ e, s.job id = some e ∧ Evolves e.hash e'.hash

theorem Carried.of_job (hjob : s'.job = s.job) : Carried s s' := fun id e' he' ↦
  ⟨e', by rw [← hjob, he'], .refl _⟩

theorem Carried.refl (s : Store) : Carried s s := .of_job rfl

theorem Carried.trans (hfirst : Carried s s') (hsecond : Carried s' s'') : Carried s s'' := by
  intro id e'' he''
  obtain ⟨e', he', hev'⟩ := hsecond id e'' he''
  obtain ⟨e, he, hev⟩ := hfirst id e' he'
  exact ⟨e, he, hev.trans hev'⟩

/-- A script wrote under one ID. -/
theorem Carried.of_update {o : Option Entry} (hjob : s'.job = Function.update s.job id o)
    (ho : ∀ e', o = some e' → ∃ e, s.job id = some e ∧ Evolves e.hash e'.hash) : Carried s s' := by
  intro x e' he'
  rw [hjob] at he'
  by_cases hx : x = id
  · subst hx
    rw [Function.update_self] at he'
    exact ho e' he'
  · rw [Function.update_of_ne hx] at he'
    exact ⟨e', he', .refl _⟩

theorem Carried.of_hset {h : Hash} (hjob : s'.job = (s.hset id h).job) (he : s.job id = some e)
    (hev : Evolves e.hash h) : Carried s s' := by
  refine .of_update hjob fun e' he' ↦ ?_
  obtain rfl := Option.some.inj he'
  exact ⟨e, he, hev⟩

theorem carried_pexpire (s : Store) (id : String) (at_ : ℤ) : Carried s (s.pexpire id at_) := by
  refine .of_update rfl fun e' he' ↦ ?_
  obtain ⟨e, he, rfl⟩ := Option.map_eq_some_iff.1 he'
  exact ⟨e, he, .refl _⟩

theorem carried_del (s : Store) (id : String) : Carried s (s.del id) :=
  .of_update rfl fun e' he' ↦ by cases he'

theorem carried_live (s : Store) (visible : ℤ → ℤ → Bool) (now : ℤ) :
    Carried s (s.live visible now) := fun _ e' he' ↦
  ⟨e', (Option.filter_eq_some_iff.1 he').1, .refl _⟩

/-! ### Script by script -/

theorem carried_ack (s : Store) (now ttl : ℤ) (w id : String) :
    Carried s (Script.ack s now w id ttl).2 := by
  rw [Script.ack]
  rcases hfence : fence s w id with r | h
  · exact .refl s
  · obtain ⟨e, he, rfl, hact, -⟩ := fence_eq_ok.1 hfence
    dsimp only
    split_ifs
    · refine Carried.trans ?_ (carried_pexpire _ _ _)
      exact Carried.of_hset rfl he ⟨rfl, .inr ⟨by simp [hact], rfl⟩⟩
    · exact Carried.trans (.of_job rfl) (carried_del _ _)

theorem carried_kill (s : Store) (now : ℤ) (w id reason : String) :
    Carried s (Script.kill s now w id reason).2 := by
  rw [Script.kill]
  rcases hfence : fence s w id with r | h
  · exact .refl s
  · obtain ⟨e, he, rfl, -, -⟩ := fence_eq_ok.1 hfence
    exact Carried.of_hset rfl he ⟨rfl, .inl rfl⟩

theorem carried_extend {deadline : ℤ} {ids : List String} : ∀ {s : Store},
    Carried s (Script.extend w deadline ids s).2 := by
  induction ids with
  | nil => exact .refl _
  | cons id ids ih =>
    intro s
    rw [Script.extend]
    rcases hfence : fence s w id with r | h
    · exact ih
    · obtain ⟨e, he, rfl, hact, -⟩ := fence_eq_ok.1 hfence
      refine Carried.trans ?_ ih
      exact Carried.of_hset rfl he ⟨rfl, .inr ⟨by simp [hact], rfl⟩⟩

theorem carried_recover (he : s.job id = some e) (hact : e.hash.state = .active) (now : ℤ)
    (q : String) : Carried s (recover (s.zremActive q id) now q id e.hash) := by
  rw [recover]
  dsimp only
  split_ifs
  · exact Carried.of_hset rfl he ⟨rfl, .inl rfl⟩
  · exact Carried.of_hset rfl he ⟨rfl, .inr ⟨by simp [hact], rfl⟩⟩

theorem carried_reapLoop {q : String} {ids : List String} : ∀ {n : ℕ × ℕ} {s : Store}, Located s →
    ids.Nodup → (∀ i ∈ ids, ∃ t, (s.active q).lookup i = some t ∧ t ≤ now) →
    Carried s (reapLoop now q ids n s).2 := by
  induction ids with
  | nil => exact fun _ _ _ ↦ .refl _
  | cons id ids ih =>
    intro n s hs hnodup hdue
    obtain ⟨t, ht, hle⟩ := hdue id List.mem_cons_self
    obtain ⟨e, he, hact, rfl, rfl⟩ := hs.of_lease ht
    have hmove := moves_recover hs he hact hle
    rw [List.nodup_cons] at hnodup
    rw [reapLoop, if_pos (by rw [ht]; rfl)]
    simp only [show (s.zremActive e.hash.queue id).job id = some e from he]
    refine (carried_recover he hact now _).trans (ih hmove.located hnodup.2 fun i hi ↦ ?_)
    have hne : i ≠ id := fun heq ↦ hnodup.1 (heq ▸ hi)
    rw [hmove.frame.active _ i hne]
    exact hdue i (List.mem_cons_of_mem _ hi)

theorem waitState_ne_dead (set : WaitSet) : waitState set ≠ .dead := by
  cases set <;> simp [waitState]

theorem carried_promoteLoop {set : WaitSet} {ids : List String} : ∀ {n : ℕ} {s : Store}, Located s →
    ids.Nodup → (∀ i ∈ ids, ∃ t, (waitSet s set).lookup i = some t ∧ t ≤ now) →
    Carried s (promoteLoop set ids n s).2 := by
  induction ids with
  | nil => exact fun _ _ _ ↦ .refl _
  | cons id ids ih =>
    intro n s hs hnodup hdue
    obtain ⟨t, ht, hle⟩ := hdue id List.mem_cons_self
    obtain ⟨e, he, hwait⟩ := hs.of_waitSet ht
    have hmove := moves_promote hs ht he hle
    rw [List.nodup_cons] at hnodup
    rw [promoteLoop, if_pos (by rw [ht]; rfl)]
    simp only [zremWait_job, he]
    have hfirst : Carried s (promoteJob (zremWait s set id) id e.hash) := by
      have hlive : e.hash.state ≠ .dead := by
        rw [hwait]
        exact waitState_ne_dead set
      have hrem : Carried s (zremWait s set id) := .of_job (by simp)
      exact hrem.trans (.of_hset rfl (by simpa using he) ⟨rfl, .inr ⟨hlive, rfl⟩⟩)
    refine hfirst.trans (ih hmove.located hnodup.2 fun i hi ↦ ?_)
    have hne : i ≠ id := fun heq ↦ hnodup.1 (heq ▸ hi)
    rw [hmove.frame.wait _ i hne]
    exact hdue i (List.mem_cons_of_mem _ hi)

theorem carried_promoteSet (now limit : ℤ) (set : WaitSet) {r : ℕ × Store} (hs : Located r.2) :
    Carried r.2 (promoteSet now limit set r).2 := by
  rw [promoteSet]
  split_ifs
  · exact carried_promoteLoop hs (dueMembers_nodup _ _ _) fun i hi ↦ mem_dueMembers hi
  · exact .refl _

theorem carried_claimNext (hs : Located s) (now : ℤ) (o : ClaimOpts) :
    Carried s (claimNext s now o).2 := by
  rcases claimNext_cases hs now o with ⟨err, heq⟩ | ⟨-, q, -, id, rest, e, hq, he, heq⟩
  · rw [heq]
    exact .refl s
  · rw [heq]
    obtain ⟨e', he', hpending, -⟩ := hs.of_head hq
    obtain rfl := Option.some.inj (he.symm.trans he')
    exact Carried.of_hset rfl he ⟨rfl, .inr ⟨by simp [hpending], rfl⟩⟩

/-! ### Call by call -/

variable (cfg) in
/-- The reason the turn stored on the job, if it was a `Nack` of it that succeeded. -/
def reasonOf (t : Turn Store Call) (id : String) : Option String :=
  match t.input.op, reply cfg t with
  | .nack _ i _ reason, .done => if i = id then some reason else none
  | _, _ => none

variable (cfg) in
/-- The reason of the latest `Nack` of the job, and nothing if there was none. -/
def lastReason (h : List (Turn Store Call)) (id : String) : String :=
  (h.findSome? fun t ↦ reasonOf cfg t id).getD ""

/-- A call left a hash with the envelope of the one that was there, and with its error if the job is
not dead and the call is not a nack of it. -/
def Keeps (cfg : Config) (t : Turn Store Call) (id : String) (h h' : Hash) : Prop :=
  h'.envelope = h.envelope ∧ (h'.state = .dead ∨
    h.state ≠ .dead ∧ h'.lastErr = (reasonOf cfg t id).getD h.lastErr)

theorem Evolves.keeps {h h' : Hash} (hev : Evolves h h') (hnone : reasonOf cfg t id = none) :
    Keeps cfg t id h h' := by
  refine ⟨hev.envelope, ?_⟩
  rw [hnone]
  exact hev.lastErr

theorem reasonOf_of_done (hop : ∀ w r reason, t.input.op = .nack w id r reason →
    reply cfg t ≠ .done) : reasonOf cfg t id = none := by
  unfold reasonOf
  split
  · next w i r reason hnack hdone =>
    rw [if_neg]
    rintro rfl
    exact hop w r reason hnack hdone
  · rfl

theorem reasonOf_of_op (hop : ∀ w r reason, t.input.op ≠ .nack w id r reason) :
    reasonOf cfg t id = none :=
  reasonOf_of_done fun w r reason hnack ↦ absurd hnack (hop w r reason)

/-- A nack that passes the fence writes its reason. -/
theorem nack_of_fence {h : Hash} (hfence : fence s w id = .ok h) (now retryAt : ℤ)
    (reason : String) : ∃ s₁ h', Script.nack s now w id retryAt reason = (.ok (), s₁) ∧
      s₁.job = (s.hset id h').job ∧ h'.envelope = h.envelope ∧
      (h'.state = .dead ∨ h'.lastErr = reason) := by
  rw [Script.nack, hfence]
  dsimp only
  split_ifs
  · exact ⟨_, _, rfl, rfl, rfl, .inl rfl⟩
  · exact ⟨_, _, rfl, rfl, rfl, .inr rfl⟩

/-- **What a nack makes of a hash.** -/
theorem keeps_of_nack {x reason : String} {retryAt : Time}
    (hop : c.op = .nack w x retryAt reason) (he' : (exec cfg s c).2.job id = some e') :
    ∃ e, s.job id = some e ∧ Keeps cfg ⟨s, c⟩ id e.hash e'.hash := by
  have hexec : exec cfg s c = (Script.nack (seen cfg s c) c.now w x (msFromTime retryAt)
      reason).map (fun r ↦ .of (fun _ ↦ .done) (fenceError x w r)) fun s ↦ s := by
    rw [exec, hop]
    rfl
  have hunchanged (hnone : reasonOf cfg ⟨s, c⟩ id = none)
      (hsame : (exec cfg s c).2.job id = (seen cfg s c).job id) :
      ∃ e, s.job id = some e ∧ Keeps cfg ⟨s, c⟩ id e.hash e'.hash :=
    ⟨e', (Option.filter_eq_some_iff.1 (hsame.symm.trans he')).1, (Evolves.refl _).keeps hnone⟩
  rcases hfence : fence (seen cfg s c) w x with r | h
  · rw [show Script.nack (seen cfg s c) c.now w x (msFromTime retryAt) reason = (.error r, _) by
      rw [Script.nack, hfence]] at hexec
    refine hunchanged ?_ (by rw [hexec]; rfl)
    rcases r with - | ⟨state, owner⟩ <;> simp [reasonOf, reply, hexec, hop, fenceError, Reply.of]
  · obtain ⟨s₁, h', heq, hjob, henv, hlast⟩ :=
      nack_of_fence hfence c.now (msFromTime retryAt) reason
    rw [heq] at hexec
    have hreason : reasonOf cfg ⟨s, c⟩ id = if x = id then some reason else none := by
      simp [reasonOf, reply, hexec, hop, fenceError, Reply.of]
    have hwritten : (exec cfg s c).2.job = ((seen cfg s c).hset x h').job := by
      rw [hexec]
      exact hjob
    by_cases hx : x = id
    · subst hx
      obtain ⟨e, he, rfl, hact, -⟩ := fence_eq_ok.1 hfence
      rw [hwritten] at he'
      obtain rfl : (⟨h', _⟩ : Entry) = e' :=
        Option.some.inj ((Function.update_self x _ _).symm.trans he')
      refine ⟨e, (Option.filter_eq_some_iff.1 he).1, henv, ?_⟩
      rw [hreason, if_pos rfl]
      exact hlast.imp_right fun h ↦ ⟨by simp [hact], h⟩
    · refine hunchanged (by rw [hreason, if_neg hx]) ?_
      rw [hwritten]
      exact Function.update_of_ne (Ne.symm hx) ..

/-- **What a call makes of a hash.** -/
theorem hash_of_exec (hs : Located s) (he' : (exec cfg s c).2.job id = some e') :
    (∃ newID wall j st, c.op = .enqueue newID wall (some j) ∧
      (exec cfg s c).1 = .stored { j.assigned newID with state := st } ∧
      (j.assigned newID).id = id ∧ e'.hash = jobHash c.now (j.assigned newID)) ∨
    ∃ e, s.job id = some e ∧ Keeps cfg ⟨s, c⟩ id e.hash e'.hash := by
  have hseen := (hs.live cfg.visible c.now).1
  have hcarried (hcar : Carried (seen cfg s c) (exec cfg s c).2)
      (hop : ∀ w r reason, c.op ≠ .nack w id r reason) :
      ∃ e, s.job id = some e ∧ Keeps cfg ⟨s, c⟩ id e.hash e'.hash := by
    obtain ⟨e, he, hev⟩ := ((carried_live s cfg.visible c.now).trans hcar) id e' he'
    exact ⟨e, he, hev.keeps (reasonOf_of_op hop)⟩
  rcases hop : c.op with ⟨newID, wall, o⟩ | o | ⟨w, i⟩ | ⟨w, i, r, reason⟩ | ⟨w, i, reason⟩ |
    ⟨w, ids, vt⟩ | ⟨q, limit⟩ | limit | ⟨i, t⟩ | limit | ⟨i, t, t'⟩ | i
  · rcases enqueue_cases (seen cfg s c) c.now newID wall o with
      ⟨err, heq⟩ | ⟨j, st, s₁, rfl, hsame, heq⟩
    · refine .inr (hcarried ?_ (by simp [hop]))
      rw [exec, hop, run, Prod.map_snd, heq]
      exact .refl _
    · have hexec : exec cfg s c = (.stored { j.assigned newID with state := st },
          place s₁ (jobHash c.now (j.assigned newID))) := by
        rw [exec, hop, run, heq]
        rfl
      by_cases hid : id = (jobHash c.now (j.assigned newID)).id
      · subst hid
        rw [hexec, job_place] at he'
        obtain rfl := Option.some.inj he'
        exact .inl ⟨newID, wall, j, st, rfl, by rw [hexec], rfl, rfl⟩
      · rw [hexec, (frame_place s₁ _).job id hid, hsame.job] at he'
        exact .inr ⟨e', (Option.filter_eq_some_iff.1 he').1,
          (Evolves.refl _).keeps (reasonOf_of_op (by simp [hop]))⟩
  · refine .inr (hcarried ?_ (by simp [hop]))
    rw [exec, hop]
    exact carried_claimNext hseen c.now o
  · refine .inr (hcarried ?_ (by simp [hop]))
    rw [exec, hop]
    exact carried_ack _ _ _ _ _
  · exact .inr (keeps_of_nack hop he')
  · refine .inr (hcarried ?_ (by simp [hop]))
    rw [exec, hop]
    exact carried_kill _ _ _ _ _
  · refine .inr (hcarried ?_ (by simp [hop]))
    rw [exec, hop, run, extend]
    split_ifs
    · exact .refl _
    · exact .refl _
    · exact carried_extend
  · refine .inr (hcarried ?_ (by simp [hop]))
    rw [exec, hop, run, reapQueue]
    split_ifs
    · exact .refl _
    · exact .refl _
    · exact carried_reapLoop hseen (dueMembers_nodup _ _ _) fun i hi ↦ mem_dueMembers hi
  · refine .inr (hcarried ?_ (by simp [hop]))
    rw [exec, hop, run, promote]
    split_ifs
    · exact .refl _
    · exact .refl _
    · have hfirst := carried_promoteSet c.now limit .delayed (r := (0, seen cfg s c)) hseen
      have hmid := (steps_promoteSet hseen c.now limit .delayed 0).2.1.located
      exact hfirst.trans (carried_promoteSet c.now limit .retry hmid)
  · refine .inr (hcarried ?_ (by simp [hop]))
    obtain ⟨cron, heq⟩ := scheduleCronIfAbsent_cron (seen cfg s c) i t
    rw [exec, hop, run, Prod.map_snd, heq]
    exact .of_job rfl
  · exact .inr (hcarried (by rw [exec, hop]; exact .refl _) (by simp [hop]))
  · refine .inr (hcarried ?_ (by simp [hop]))
    obtain ⟨cron, heq⟩ := claimCron_cron (seen cfg s c) i t t'
    rw [exec, hop, run, Prod.map_snd, heq]
    exact .of_job rfl
  · exact .inr (hcarried (by rw [exec, hop]; exact .of_job rfl) (by simp [hop]))

/-! ### Along a run -/

theorem lastReason_cons (t : Turn Store Call) (h : List (Turn Store Call)) (id : String) :
    lastReason cfg (t :: h) id = (reasonOf cfg t id).getD (lastReason cfg h id) := by
  rw [lastReason, List.findSome?_cons]
  rcases reasonOf cfg t id with - | reason
  · rfl
  · rfl

/-- A job that was never enqueued was never nacked. -/
theorem lastReason_of_unused (hrun : (machine cfg).Run (Fresh cfg) h s)
    (hnew : ∀ l, (id, .enqueued l) ∉ history (events cfg) h) : lastReason cfg h id = "" := by
  have hnone : ∀ t ∈ h, reasonOf cfg t id = none := by
    intro t ht
    obtain ⟨-, a, hfollows, -⟩ := lives_of_fresh hrun
    refine reasonOf_of_done fun w r reason hop hdone ↦ ?_
    have hev : .nacked w (msFromTime r) ∈ eventsAt id (history (events cfg) h) :=
      mem_eventsAt.2 (mem_history.2 ⟨t, ht, mem_events_iff.2 ⟨r, reason, hop, hdone, rfl⟩⟩)
    have hfold := hfollows id
    rcases hevs : eventsAt id (history (events cfg) h) with - | ⟨ev, evs⟩
    · rw [hevs] at hev
      cases hev
    · rw [hevs, List.foldlM_cons] at hfold
      obtain ⟨o₁, hadv, -⟩ := Option.bind_eq_some_iff.1 hfold
      obtain ⟨l, rfl, -, -⟩ := Life.advance_none_iff.1 hadv
      exact hnew l (mem_eventsAt.1 (hevs ▸ List.mem_cons_self))
  rw [lastReason, List.findSome?_eq_none_iff.2 hnone]
  rfl

/-- **What Redis knows about a job**: its envelope is that of the enqueue that stored it, and if it
is not dead its error is that of its latest nack. -/
theorem hash_of_run (hrun : (machine cfg).Run (Fresh cfg) h s) : ∀ id e, s.job id = some e →
    ∃ t ∈ h, ∃ j, reply cfg t = .stored j ∧ j.id = id ∧
      e.hash.envelope = (jobHash t.input.now j).envelope ∧
      (e.hash.state = .dead ∨ e.hash.lastErr = lastReason cfg h id) := by
  refine hrun.invariant (P := fun h s ↦ ∀ id e, s.job id = some e → ∃ t ∈ h, ∃ j,
    reply cfg t = .stored j ∧ j.id = id ∧ e.hash.envelope = (jobHash t.input.now j).envelope ∧
      (e.hash.state = .dead ∨ e.hash.lastErr = lastReason cfg h id))
    (fun id e he ↦ by cases he) fun h s c hrun ih hok id e' he' ↦ ?_
  rcases hash_of_exec (lives_of_fresh hrun).1 he' with
    ⟨newID, wall, j, st, hop, hstored, hid, hhash⟩ | ⟨e, he, henv, hlast⟩
  · refine ⟨⟨s, c⟩, List.mem_cons_self, _, hstored, hid, congrArg Hash.envelope hhash, .inr ?_⟩
    have hnew : ∀ l, (id, .enqueued l) ∉ history (events cfg) h := hid ▸ hok.not_enqueued hop
    rw [lastReason_cons, reasonOf_of_op (by simp [hop]), lastReason_of_unused hrun hnew, hhash]
    rfl
  · obtain ⟨t, ht, j, hstored, hid, henv', hlast'⟩ := ih id e he
    refine ⟨t, List.mem_cons_of_mem _ ht, j, hstored, hid, henv.trans henv', ?_⟩
    rcases hlast with hdead | ⟨hlive, hlast⟩
    · exact .inl hdead
    · rw [lastReason_cons, hlast, hlast'.resolve_left hlive]
      exact .inr rfl

/-- The counters of a stored job count its claims and its recoveries. -/
theorem counts_of_run (hrun : (machine cfg).Run (Fresh cfg) h s) (he : s.job id = some e) :
    e.hash.attempt = claims cfg h id ∧ e.hash.recoveries = reaps cfg h id := by
  obtain ⟨-, a, hfollows, hshown⟩ := lives_of_fresh hrun
  have hl := (life_eq_some he ▸ hshown id).eq_of_some
  obtain ⟨_, -, _, _, _, _, -, -, -, -, evs, hevs, -, htally⟩ := tally_of_follows hfollows hl
  exact counts_of_tally hevs htally

/-! ### Deliveries -/

/-- A `Dequeue` returns the hash of a job that was pending. -/
theorem hash_of_claimed {o : ClaimOpts} {j₁ : Job} (hs : Located s) (hop : c.op = .dequeue o)
    (hclaim : (exec cfg s c).1 = .claimed j₁) : ∃ id e, s.job id = some e ∧
      e.hash.state = .pending ∧
      decodeJob (claimed c.now o.workerID (milliseconds o.visibilityTimeout) e.hash) = .ok j₁ := by
  obtain ⟨h₁, hnext, hdecode⟩ := (claimed_iff hop).1 hclaim
  have hseen := (hs.live cfg.visible c.now).1
  rcases claimNext_cases hseen c.now o with ⟨err, heq⟩ | ⟨-, q, -, id, rest, e, hq, he, heq⟩
  · rw [show claimNext (seen cfg s c) c.now o = _ from heq] at hnext
    cases hnext
  rw [show claimNext (seen cfg s c) c.now o = _ from heq] at hnext
  obtain rfl := Except.ok.inj hnext
  obtain ⟨e', he', hpending, -⟩ := hseen.of_head hq
  obtain rfl := Option.some.inj (he.symm.trans he')
  exact ⟨id, e, (Option.filter_eq_some_iff.1 he).1, hpending, hdecode⟩

/-- The job that a `Dequeue` at `now` returns of job `j` that was enqueued at `now₀`, after it was
claimed, recovered and nacked as told. -/
def delivered (now₀ : ℤ) (j : Job) (claims reaps : ℕ) (reason : String) (now : ℤ) (o : ClaimOpts) :
    Job where
  id := j.id
  queue := j.queue
  type := j.type
  payload := j.payload
  attempt := claims + 1
  maxAttempts := j.maxAttempts
  recoveries := reaps
  state := .active
  owner := o.workerID
  uniqueKey := j.uniqueKey
  -- the window is not kept in Redis
  uniqueTTL := 0
  lastErr := reason
  enqueuedAt := timeFromMs now₀
  runAt := timeFromMs (msFromTime j.runAt)
  startedAt := timeFromMs now
  deadline := timeFromMs (now + milliseconds o.visibilityTimeout)

/-- **A delivery is determined by the run.** Whatever happened to a job before, the `Dequeue` that
returns it returns the job as it was enqueued, with the number of its claims as the attempt, the
number of its recoveries, and the reason of its latest nack. -/
theorem delivery_determined {o : ClaimOpts} {j₁ : Job} (hrun : (machine cfg).Run (Fresh cfg) h s)
    (hop : c.op = .dequeue o) (hclaim : (exec cfg s c).1 = .claimed j₁) :
    ∃ t ∈ h, ∃ j, reply cfg t = .stored j ∧
      j₁ = delivered t.input.now j (claims cfg h j.id) (reaps cfg h j.id) (lastReason cfg h j.id)
        c.now o := by
  obtain ⟨id, e, hjob, hpending, hdecode⟩ := hash_of_claimed (lives_of_fresh hrun).1 hop hclaim
  obtain ⟨t, ht, j, hstored, rfl, henv, hlast⟩ := hash_of_run hrun id e hjob
  refine ⟨t, ht, j, hstored, ?_⟩
  have hreason := hlast.resolve_left (by simp [hpending])
  obtain ⟨hattempt, hrecoveries⟩ := counts_of_run hrun hjob
  rw [decodeJob] at hdecode
  split_ifs at hdecode
  obtain rfl := Except.ok.inj hdecode
  simp only [Hash.envelope, jobHash, newHash, Envelope.mk.injEq] at henv
  obtain ⟨hid, hqueue, htype, hpayload, hmax, hkey, hat, hrunAt⟩ := henv
  simp only [claimed, delivered, hid, hqueue, htype, hpayload, hmax, hkey, hat, hrunAt, hreason,
    hattempt, hrecoveries]

/-- A job whose first attempt failed, and which is ready again. -/
def retried : List Call :=
  [⟨1, .enqueue "a" 0 (some (.plain "q" "t" 3))⟩, ⟨2, .dequeue ⟨"w", ["q"], hour⟩⟩,
    ⟨3, .nack "w" "a" (4 * millisecond) "boom"⟩, ⟨5, .promote 10⟩]

theorem delivery_determined_retried : ∃ h s j₁, (machine .default).Run (Fresh .default) h s ∧
    (exec .default s ⟨6, .dequeue ⟨"v", ["q"], hour⟩⟩).1 = .claimed j₁ ∧ j₁.attempt = 2 ∧
    j₁.lastErr = "boom" ∧ ∃ t ∈ h, ∃ j, reply .default t = .stored j ∧
      j₁ = delivered t.input.now j (claims .default h j.id) (reaps .default h j.id)
        (lastReason .default h j.id) 6 ⟨"v", ["q"], hour⟩ := by
  have hrun : (machine .default).Run (Fresh .default) _ _ :=
    .play retried .start ⟨by simp [Fresh], by simp [Fresh], by simp [Fresh], by simp [Fresh],
      trivial⟩
  obtain ⟨j₁, hclaim, hattempt, hreason⟩ : ∃ j₁, (exec .default
      ((machine .default).play [] (machine .default).init retried).2
      ⟨6, .dequeue ⟨"v", ["q"], hour⟩⟩).1 = .claimed j₁ ∧ j₁.attempt = 2 ∧ j₁.lastErr = "boom" :=
    ⟨_, rfl, rfl, rfl⟩
  exact ⟨_, _, j₁, hrun, hclaim, hattempt, hreason, delivery_determined hrun rfl hclaim⟩

end TaskQueue.Redis
