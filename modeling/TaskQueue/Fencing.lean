import TaskQueue.Memory.Lease
import TaskQueue.Redis.Location

/-!
# Fencing

`Ack`, `Nack` and `Kill` are fenced: a worker whose lease was reaped must not settle the job while
another claim of it is running. A **claim** is what a `Dequeue` returned, the job ID together with
the attempt number. A report by the holder of a claim may succeed only while that claim is the
current one: no reap has ended it and no later `Dequeue` has returned the job.

Both brokers fence on the **worker** and not on the claim. A worker that stalls, loses its lease and
claims the same job again holds two claims of it, and a late report for the first one passes the
fence. That is the only way the fence fails: the job is active under the worker's name with another
attempt number than the claim's (`Reclaimed`). Short of that the attempt number has not moved, so
nobody claimed the job in between, and nobody reaped it either (`Life.attempt_eq_iff`).
-/

namespace TaskQueue

open Keyed

/-! ### The in-memory broker -/

namespace Memory

open Broker

variable {b : Broker} {c : Call} {t : Turn Broker Call} {h newer older : List (Turn Broker Call)}
  {id w : String} {a : ℤ}

/-- What a run may do next if dead jobs are not replayed, which would start their attempt numbers
again. -/
structure Unreplayed (h : List (Turn Broker Call)) (b : Broker) (c : Call) : Prop where
  admissible : Admissible h b c
  op : ∀ ids, c.op ≠ .retryDead ids

/-- A `Dequeue` by worker `w` returned the job with this attempt number. -/
def Claimed (t : Turn Broker Call) (w id : String) (attempt : ℤ) : Prop :=
  ∃ o j, t.input.op = .dequeue o ∧ o.workerID = w ∧ reply t = .claimed j ∧ j.id = id ∧
    j.attempt = attempt

/-- A `Dequeue` returned the job. -/
def Returns (t : Turn Broker Call) (id : String) : Prop := ∃ w attempt, Claimed t w id attempt

/-- The call reports on the job in the name of `w`. -/
def Reports (c : Call) (w id : String) : Prop :=
  c.op = .ack w id ∨ (∃ r reason, c.op = .nack w id r reason) ∨ ∃ reason, c.op = .kill w id reason

/-- `w` has claimed the job again: it is active in its name, under another attempt number. -/
def Reclaimed (b : Broker) (w id : String) (attempt : ℤ) : Prop :=
  b.closed = false ∧ ∃ j, b.jobs.lookup id = some j ∧ j.state = .active ∧ j.owner = w ∧
    j.attempt ≠ attempt

/-- A report succeeds exactly for the owner of the lease. -/
theorem report_done_iff (hrep : Reports c w id) : (exec b c).1 = .done ↔
    b.closed = false ∧ ∃ j, b.jobs.lookup id = some j ∧ j.state = .active ∧ j.owner = w := by
  have hfence : (∃ j, b.jobs.lookup id = some j ∧ j.state = .active ∧ j.owner = w) ↔
      ∃ j, b.ownedActive w id = .ok j := by simp only [ownedActive_eq_ok]
  rw [hfence]
  rcases hclosed : b.closed with _ | _
  · rcases hown : b.ownedActive w id with err | j
    · rcases hrep with hop | ⟨r, reason, hop⟩ | ⟨reason, hop⟩
      · simp [exec, hop, Broker.ack, hclosed, hown, Reply.of]
      · simp [exec, hop, nack, hclosed, hown, Reply.of]
      · simp [exec, hop, kill, hclosed, hown, Reply.of]
    · have hact := (ownedActive_eq_ok.1 hown).2.1
      rcases hrep with hop | ⟨r, reason, hop⟩ | ⟨reason, hop⟩
      · have hstep : canTransition j.state .completed ≠ false := by
          rw [hact]
          decide
        simp [exec, hop, Broker.ack, hclosed, hown, hstep, Reply.of]
      · simp only [exec, hop, nack, hclosed, hown, Bool.false_eq_true, if_false, Prod.map_fst]
        split_ifs <;> simp [Reply.of]
      · simp [exec, hop, kill, hclosed, hown, Reply.of]
  · rcases hrep with hop | ⟨r, reason, hop⟩ | ⟨reason, hop⟩
    · simp [exec, hop, Broker.ack, hclosed, Reply.of]
    · simp [exec, hop, nack, hclosed, Reply.of]
    · simp [exec, hop, kill, hclosed, Reply.of]

/-- What a `Dequeue` returns is what it stored. -/
theorem lookup_of_claimed (hloc : Located b) {o : ClaimOpts} {j : Job} (hop : c.op = .dequeue o)
    (hreply : (exec b c).1 = .claimed j) : (exec b c).2.jobs.lookup j.id = some j := by
  simp only [exec, hop, Prod.map_fst, Prod.map_snd, dequeue] at hreply ⊢
  split_ifs at hreply ⊢
  · cases hreply
  · cases hreply
  · cases hreply
  · rcases dequeueFrom_cases hloc c.now o.workerID o.visibilityTimeout o.queues with
      ⟨heq, -⟩ | ⟨q, -, i, rest, j₀, -, hj₀, heq⟩
    · rw [heq] at hreply
      cases hreply
    · rw [heq] at hreply ⊢
      obtain rfl := Reply.claimed.inj hreply
      show ((b.pop q).jobs.insert i _).lookup j₀.id = _
      rw [hloc.keyed i j₀ hj₀, AList.lookup_insert]

/-- What happens to a claimed job until it is seen active again. -/
theorem attempt_of_claim (hrun : machine.Run Unreplayed (newer ++ t :: older) b)
    (hclaim : Claimed t w id a) {j : Job} (hj : b.jobs.lookup id = some j)
    (hact : j.state = .active) :
    (j.attempt = a → ∀ e, (id, e) ∈ history events newer → ∃ d, e = .extended j.owner d) ∧
      (j.attempt ≠ a → ∃ w d, (id, .claimed w d) ∈ history events newer) := by
  have hadm : machine.Run Admissible (newer ++ t :: older) b :=
    hrun.mono fun _ _ _ _ hok ↦ hok.admissible
  obtain ⟨o, j₀, hop, -, hreply, rfl, rfl⟩ := hclaim
  obtain ⟨-, a₁, hfollows₁, hshown₁⟩ := lives_of_run hadm.upto
  obtain ⟨-, a₂, hfollows₂, hshown₂⟩ := lives_of_run hadm
  have hstored : (machine.after t).jobs.lookup j₀.id = some j₀ :=
    lookup_of_claimed (located_of_run hadm.of_append.1) hop hreply
  have hl₁ := (life_eq_some hstored ▸ hshown₁ j₀.id).eq_of_some
  have hl₂ := (life_eq_some hj ▸ hshown₂ j₀.id).eq_of_some
  rw [history_append] at hfollows₂
  have hsince := hfollows₁.of_append hfollows₂ j₀.id
  rw [hl₁, hl₂] at hsince
  have hreset : ∀ e ∈ eventsAt j₀.id (history events newer), e.isReset = false := by
    intro e he
    cases e with
    | enqueued l => exact absurd he (Life.not_enqueued_of_some hsince l)
    | replayed =>
      obtain ⟨t', ht', hdid⟩ := mem_history.1 (mem_eventsAt.1 he)
      obtain ⟨ids, -, hop', -⟩ := mem_events_iff.1 hdid
      obtain ⟨n₁, n₂, rfl⟩ := List.append_of_mem ht'
      rw [List.append_assoc] at hrun
      exact absurd hop' (hrun.of_append.2.op ids)
    | _ => rfl
  have hphase : b.phase j₀.id j = .active j.owner j.deadline := by simp [phase, hact]
  obtain ⟨hsame, hother⟩ := Life.attempt_eq_iff hsince hphase hreset
  refine ⟨fun heq e he ↦ hsame heq e (mem_eventsAt.2 he), fun hne ↦ ?_⟩
  obtain ⟨e, he, hisClaim⟩ := hother hne
  cases e with
  | claimed w d => exact ⟨w, d, mem_eventsAt.1 he⟩
  | _ => cases hisClaim

/-- **The fence of the in-memory broker**, over a run up to a report by the holder of a claim. -/
theorem fence_iff (hrun : machine.Run Unreplayed (newer ++ t :: older) b)
    (hclaim : Claimed t w id a) (hrep : Reports c w id) :
    ((exec b c).1 = .done → ∀ t' ∈ newer, ¬ Reaps t' id ∧ ¬ Returns t' id) ↔
      ¬ Reclaimed b w id a := by
  constructor
  · rintro hprop ⟨hopen, j, hj, hact, hown, hne⟩
    have hquiet := hprop ((report_done_iff hrep).2 ⟨hopen, j, hj, hact, hown⟩)
    obtain ⟨w', d', hmem⟩ := (attempt_of_claim hrun hclaim hj hact).2 hne
    obtain ⟨t', ht', hdid⟩ := mem_history.1 hmem
    obtain ⟨o, j', hop, hreply, hid, -⟩ := mem_events_iff.1 hdid
    exact (hquiet t' ht').2 ⟨o.workerID, j'.attempt, o, j', hop, rfl, hreply, hid, rfl⟩
  · intro hnot hdone t' ht'
    obtain ⟨hopen, j, hj, hact, hown⟩ := (report_done_iff hrep).1 hdone
    have heq : j.attempt = a := by
      by_contra hne
      exact hnot ⟨hopen, j, hj, hact, hown, hne⟩
    have hall := (attempt_of_claim hrun hclaim hj hact).1 heq
    -- a takeover in between would be an event that is not a renewal
    have hnone : ¬ ((∃ w d, Claims t' w id d) ∨ Reaps t' id) := by
      intro htake
      have hadm : machine.Run Admissible (newer ++ t :: older) b :=
        hrun.mono fun _ _ _ _ hok ↦ hok.admissible
      obtain ⟨n₁, n₂, rfl⟩ := List.append_of_mem ht'
      rw [List.append_assoc] at hadm
      obtain ⟨e, he⟩ := exists_event_of_takeover hadm.upto htake
      obtain ⟨d, rfl⟩ := hall e (mem_history.2 ⟨t', ht', he⟩)
      rcases event_of_takeover htake he with ⟨_, _, h⟩ | h <;> cases h
    refine ⟨fun hreap ↦ hnone (.inr hreap), ?_⟩
    rintro ⟨w', a', o, j', hop, hw, hreply, hid, -⟩
    exact hnone (.inl ⟨w', j'.deadline, o, j', hop, hw, hreply, hid, rfl⟩)

end Memory

/-! ### The Redis broker -/

namespace Redis

open Store Script

variable {cfg : Config} {s : Store} {c : Call} {t : Turn Store Call}
  {h newer older : List (Turn Store Call)} {id w : String} {a : ℤ}

variable (cfg) in
/-- A `Dequeue` by worker `w` returned the job with this attempt number. -/
def Claimed (t : Turn Store Call) (w id : String) (attempt : ℤ) : Prop :=
  ∃ o j, t.input.op = .dequeue o ∧ o.workerID = w ∧ reply cfg t = .claimed j ∧ j.id = id ∧
    j.attempt = attempt

variable (cfg) in
/-- A `Dequeue` returned the job. -/
def Returns (t : Turn Store Call) (id : String) : Prop := ∃ w attempt, Claimed cfg t w id attempt

variable (cfg) in
/-- A `Reap` acted on the job: it changed what is stored for it. -/
def Reaps (t : Turn Store Call) (id : String) : Prop :=
  (∃ q limit, t.input.op = .reap q limit) ∧
    ((machine cfg).after t).job id ≠ (seen cfg t.before t.input).job id

/-- The call reports on the job in the name of `w`. -/
def Reports (c : Call) (w id : String) : Prop :=
  c.op = .ack w id ∨ (∃ r reason, c.op = .nack w id r reason) ∨ ∃ reason, c.op = .kill w id reason

/-- `w` has claimed the job again: it is active in its name, under another attempt number. -/
def Reclaimed (s : Store) (w id : String) (attempt : ℤ) : Prop :=
  ∃ e, s.job id = some e ∧ e.hash.state = .active ∧ e.hash.owner = w ∧ e.hash.attempt ≠ attempt

/-- A report succeeds exactly for the owner of the lease. -/
theorem report_done_iff (hrep : Reports c w id) : (exec cfg s c).1 = .done ↔
    ∃ e, (seen cfg s c).job id = some e ∧ e.hash.state = .active ∧ e.hash.owner = w := by
  have hfence : (∃ e, (seen cfg s c).job id = some e ∧ e.hash.state = .active ∧ e.hash.owner = w) ↔
      ∃ h, fence (seen cfg s c) w id = .ok h := by
    simp only [fence_eq_ok]
    constructor
    · rintro ⟨e, he, hact, hown⟩
      exact ⟨e.hash, e, he, rfl, hact, hown⟩
    · rintro ⟨_, e, he, rfl, hact, hown⟩
      exact ⟨e, he, hact, hown⟩
  rw [hfence]
  rcases hown : fence (seen cfg s c) w id with r | h
  · rcases hrep with hop | ⟨t, reason, hop⟩ | ⟨reason, hop⟩ <;> rcases r with _ | ⟨state, owner⟩ <;>
      simp [exec, hop, run, ack, nack, kill, Script.ack, Script.nack, Script.kill, hown, fenceError,
        Reply.of]
  · rcases hrep with hop | ⟨t, reason, hop⟩ | ⟨reason, hop⟩
    · simp only [exec, hop, run, ack, Script.ack, hown]
      split_ifs <;> simp [fenceError, Reply.of]
    · simp only [exec, hop, run, nack, Script.nack, hown]
      split_ifs <;> simp [fenceError, Reply.of]
    · simp [exec, hop, run, kill, Script.kill, hown, fenceError, Reply.of]

/-- What a `Dequeue` returns is what its script claimed. -/
theorem claimed_iff {o : ClaimOpts} {j : Job} (hop : c.op = .dequeue o) :
    (exec cfg s c).1 = .claimed j ↔
      ∃ h, (claimNext (seen cfg s c) c.now o).1 = .ok h ∧ decodeJob h = .ok j := by
  simp only [exec, hop, run, dequeue, Prod.map_fst]
  rcases (claimNext (seen cfg s c) c.now o).1 with err | h
  · simp [Except.bind, Reply.of]
  · rcases hj : decodeJob h with err | j'
    · simp [Except.bind, Reply.of, hj]
    · simp [Except.bind, Reply.of, hj]

theorem decodeJob_ok {h : Hash} {j : Job} (hj : decodeJob h = .ok j) :
    h.id ≠ "" ∧ j.id = h.id ∧ j.attempt = h.attempt := by
  rw [decodeJob] at hj
  split_ifs at hj with hid
  obtain rfl := Except.ok.inj hj
  exact ⟨hid, rfl, rfl⟩

theorem decodeJob_of_ne {h : Hash} (hid : h.id ≠ "") :
    ∃ j, decodeJob h = .ok j ∧ j.id = h.id := by
  rw [decodeJob, if_neg hid]
  exact ⟨_, rfl, rfl⟩

/-- What a script claimed is what it stored. -/
theorem job_of_claimed (hloc : Located (seen cfg s c)) {o : ClaimOpts} {h : Hash}
    (hop : c.op = .dequeue o) (hclaim : (claimNext (seen cfg s c) c.now o).1 = .ok h) :
    ∃ e, (exec cfg s c).2.job h.id = some e ∧ e.hash = h := by
  have hexec : (exec cfg s c).2 = (claimNext (seen cfg s c) c.now o).2 := by
    rw [exec, hop]
    rfl
  rcases claimNext_cases hloc c.now o with ⟨err, heq⟩ | ⟨-, q, -, i, rest, e, -, he, heq⟩
  · rw [heq] at hclaim
    cases hclaim
  · rw [heq] at hclaim
    obtain rfl := Except.ok.inj hclaim
    rw [hexec, heq]
    have hid : (claimed c.now o.workerID (milliseconds o.visibilityTimeout) e.hash).id = i :=
      hloc.keyed i e he
    rw [hid]
    exact ⟨_, Function.update_self _ _ _, rfl⟩

/-- What happens to a claimed job until it is seen active again. -/
theorem attempt_of_claim (hrun : (machine cfg).Run (Admissible cfg) (newer ++ t :: older) s)
    (hclaim : Claimed cfg t w id a) {e : Entry} (he : s.job id = some e)
    (hact : e.hash.state = .active) :
    (e.hash.attempt = a →
        ∀ ev, (id, ev) ∈ history (events cfg) newer → ∃ d, ev = .extended e.hash.owner d) ∧
      (e.hash.attempt ≠ a → ∃ w d, (id, .claimed w d) ∈ history (events cfg) newer) := by
  obtain ⟨o, j, hop, -, hreply, rfl, rfl⟩ := hclaim
  obtain ⟨hloc, a₀, -, -⟩ := lives_of_run hrun.of_append.1
  obtain ⟨-, a₁, hfollows₁, hshown₁⟩ := lives_of_run hrun.upto
  obtain ⟨-, a₂, hfollows₂, hshown₂⟩ := lives_of_run hrun
  obtain ⟨h₀, hh₀, hj⟩ := (claimed_iff hop).1 hreply
  obtain ⟨-, hid, hatt⟩ := decodeJob_ok hj
  obtain ⟨e₀, he₀, rfl⟩ := job_of_claimed (hloc.live cfg.visible t.input.now).1 hop hh₀
  rw [hid] at he ⊢
  rw [hatt]
  have hstored : ((machine cfg).after t).job e₀.hash.id = some e₀ := he₀
  have hl₁ := (life_eq_some hstored ▸ hshown₁ e₀.hash.id).eq_of_some
  have hl₂ := (life_eq_some he ▸ hshown₂ e₀.hash.id).eq_of_some
  rw [history_append] at hfollows₂
  have hsince := hfollows₁.of_append hfollows₂ e₀.hash.id
  rw [hl₁, hl₂] at hsince
  have hreset : ∀ ev ∈ eventsAt e₀.hash.id (history (events cfg) newer), ev.isReset = false := by
    intro ev hev
    cases ev with
    | enqueued l => exact absurd hev (Life.not_enqueued_of_some hsince l)
    | replayed =>
      obtain ⟨t', -, hdid⟩ := mem_history.1 (mem_eventsAt.1 hev)
      exact (mem_events_iff.1 hdid).elim
    | _ => rfl
  have hphase : s.phase e₀.hash.id e.hash = .active e.hash.owner e.hash.deadline := by
    simp [Store.phase, hact]
  obtain ⟨hsame, hother⟩ := Life.attempt_eq_iff hsince hphase hreset
  refine ⟨fun heq ev hev ↦ hsame heq ev (mem_eventsAt.2 hev), fun hne ↦ ?_⟩
  obtain ⟨ev, hev, hisClaim⟩ := hother hne
  cases ev with
  | claimed w d => exact ⟨w, d, mem_eventsAt.1 hev⟩
  | _ => cases hisClaim

/-- A takeover in between is an event that is not a renewal. -/
theorem event_of_takeover (hrun : (machine cfg).Run (Admissible cfg) (t :: h) s)
    (htake : Returns cfg t id ∨ Reaps cfg t id) :
    ∃ e, (id, e) ∈ events cfg t.before t.input ∧ ∀ w d, e ≠ .extended w d := by
  rcases htake with ⟨_, _, o, j, hop, -, hreply, rfl, -⟩ | ⟨⟨q, limit, hop⟩, hchange⟩
  · obtain ⟨h₀, hh₀, hj⟩ := (claimed_iff hop).1 hreply
    rw [(decodeJob_ok hj).2.1]
    exact ⟨.claimed h₀.owner h₀.deadline, mem_events_iff.2 ⟨o, h₀, hop, hh₀, rfl, rfl, rfl⟩,
      by simp⟩
  · by_contra hnone
    refine hchange ((steps_of_run hrun).frame id fun e he ↦ hnone ⟨e, he, ?_⟩)
    rintro w d rfl
    obtain ⟨ids, vt, lost, hop', -⟩ := mem_events_iff.1 he
    rw [hop] at hop'
    cases hop'

/-- **The fence of the Redis broker**, over a run up to a report by the holder of a claim. -/
theorem fence_iff (hrun : (machine cfg).Run (Admissible cfg) (newer ++ t :: older) s)
    (hclaim : Claimed cfg t w id a) (hrep : Reports c w id) :
    ((exec cfg s c).1 = .done → ∀ t' ∈ newer, ¬ Reaps cfg t' id ∧ ¬ Returns cfg t' id) ↔
      ¬ Reclaimed (seen cfg s c) w id a := by
  have hjob : ∀ e, (seen cfg s c).job id = some e → s.job id = some e := fun e he ↦
    (Option.filter_eq_some_iff.1 he).1
  constructor
  · rintro hprop ⟨e, he, hact, hown, hne⟩
    have hquiet := hprop ((report_done_iff hrep).2 ⟨e, he, hact, hown⟩)
    obtain ⟨w', d', hmem⟩ := (attempt_of_claim hrun hclaim (hjob e he) hact).2 hne
    obtain ⟨t', ht', hdid⟩ := mem_history.1 hmem
    obtain ⟨o, h₀, hop, hh₀, rfl, -⟩ := mem_events_iff.1 hdid
    obtain ⟨_, _, hop₁, -, hreply₁, hid₁, -⟩ := hclaim
    obtain ⟨h₁, -, hj₁⟩ := (claimed_iff hop₁).1 hreply₁
    obtain ⟨hne₁, heq₁, -⟩ := decodeJob_ok hj₁
    obtain ⟨j, hj, hid⟩ := decodeJob_of_ne (h := h₀) (by rw [← hid₁, heq₁]; exact hne₁)
    exact (hquiet t' ht').2
      ⟨o.workerID, j.attempt, o, j, hop, rfl, (claimed_iff hop).2 ⟨h₀, hh₀, hj⟩, hid, rfl⟩
  · intro hnot hdone t' ht'
    obtain ⟨e, he, hact, hown⟩ := (report_done_iff hrep).1 hdone
    have heq : e.hash.attempt = a := by
      by_contra hne
      exact hnot ⟨e, he, hact, hown, hne⟩
    have hall := (attempt_of_claim hrun hclaim (hjob e he) hact).1 heq
    have hnone : ¬ (Returns cfg t' id ∨ Reaps cfg t' id) := by
      intro htake
      obtain ⟨n₁, n₂, rfl⟩ := List.append_of_mem ht'
      rw [List.append_assoc] at hrun
      obtain ⟨ev, hev, hne⟩ := event_of_takeover hrun.upto htake
      obtain ⟨d, rfl⟩ := hall ev (mem_history.2 ⟨t', ht', hev⟩)
      exact hne _ d rfl
    exact ⟨fun hreap ↦ hnone (.inr hreap), fun hret ↦ hnone (.inl hret)⟩

end Redis

/-! ### Both brokers -/

/-- **When fencing holds.** In every run of either broker, a report by the holder of a claim
succeeds only if the claim is still current, exactly when the reporting worker has not claimed the
same job again. -/
theorem fencing_iff_not_reclaimed (cfg : Redis.Config) (w id : String) (a : ℤ) :
    (∀ {newer older : List (Turn Memory.Broker Memory.Call)} {t b c},
      Memory.machine.Run Memory.Unreplayed (newer ++ t :: older) b →
      Memory.Claimed t w id a → Memory.Reports c w id →
      (((Memory.exec b c).1 = .done →
          ∀ t' ∈ newer, ¬ Memory.Reaps t' id ∧ ¬ Memory.Returns t' id) ↔
        ¬ Memory.Reclaimed b w id a)) ∧
    (∀ {newer older : List (Turn Redis.Store Redis.Call)} {t s c},
      (Redis.machine cfg).Run (Redis.Admissible cfg) (newer ++ t :: older) s →
      Redis.Claimed cfg t w id a → Redis.Reports c w id →
      (((Redis.exec cfg s c).1 = .done →
          ∀ t' ∈ newer, ¬ Redis.Reaps cfg t' id ∧ ¬ Redis.Returns cfg t' id) ↔
        ¬ Redis.Reclaimed (Redis.seen cfg s c) w id a)) :=
  ⟨Memory.fence_iff, Redis.fence_iff⟩

/-- The in-memory broker: a job is claimed by `w` at 1 until 11, reaped at 20 and claimed again by
`w` at 21. A report by `w` then succeeds. -/
theorem Memory.reclaim_run : ∃ (t₁ t₂ t₃ t₄ : Turn Broker Call) (b : Broker),
    machine.Run Unreplayed ([t₄, t₃] ++ t₂ :: [t₁]) b ∧ Claimed t₂ "w" "a" 1 ∧ Reaps t₃ "a" ∧
      (exec b ⟨22, .ack "w" "a"⟩).1 = .done := by
  let c₁ : Call := ⟨0, .enqueue "a" (some (.plain "q" "t" 3))⟩
  let c₂ : Call := ⟨1, .dequeue ⟨"w", ["q"], 10⟩⟩
  let c₃ : Call := ⟨20, .reap [] 5⟩
  let c₄ : Call := ⟨21, .dequeue ⟨"w", ["q"], 10⟩⟩
  let b₁ := machine.next machine.init c₁
  let b₂ := machine.next b₁ c₂
  let b₃ := machine.next b₂ c₃
  have hrun : machine.Run Unreplayed ([⟨b₃, c₄⟩, ⟨b₂, c₃⟩] ++ ⟨b₁, c₂⟩ :: [⟨machine.init, c₁⟩])
      (machine.next b₃ c₄) := .step c₄ (.step c₃ (.step c₂ (.step c₁ .start
    ⟨⟨by simp, by simp, by simp⟩, by simp [c₁]⟩)
    ⟨⟨by simp [c₁, c₂], by simp [c₂], by simp [c₂]⟩, by simp [c₂]⟩)
    ⟨⟨by simp [c₁, c₂, c₃], by simp [c₃], by simp [c₃]⟩, by simp [c₃]⟩)
    ⟨⟨by simp [c₁, c₂, c₃, c₄], by simp [c₄], by simp [c₄]⟩, by simp [c₄]⟩
  have hclaim : Claimed ⟨b₁, c₂⟩ "w" "a" 1 := ⟨_, _, rfl, rfl, rfl, rfl, rfl⟩
  have hreap : Reaps ⟨b₂, c₃⟩ "a" := ⟨⟨_, _, rfl⟩, by decide⟩
  have hlease : ((machine.next b₃ c₄).jobs.lookup "a").map (fun j ↦ (j.state, j.owner)) =
      some (.active, "w") := by decide +kernel
  have hdone : (exec (machine.next b₃ c₄) ⟨22, .ack "w" "a"⟩).1 = .done := by
    obtain ⟨j, hj, heq⟩ := Option.map_eq_some_iff.1 hlease
    obtain ⟨hact, hown⟩ := Prod.mk.inj heq
    exact (report_done_iff (.inl rfl)).2 ⟨by decide +kernel, j, hj, hact, hown⟩
  exact ⟨⟨machine.init, c₁⟩, ⟨b₁, c₂⟩, ⟨b₂, c₃⟩, ⟨b₃, c₄⟩, _, hrun, hclaim, hreap, hdone⟩

/-- The Redis broker: the same, with a lease from 1 to 2, a reap at 2 and a second claim at 3. -/
theorem Redis.reclaim_run : ∃ (t₁ t₂ t₃ t₄ : Turn Store Call) (s : Store),
    (machine .default).Run (Admissible .default) ([t₄, t₃] ++ t₂ :: [t₁]) s ∧
      Claimed .default t₂ "w" "a" 1 ∧ Reaps .default t₃ "a" ∧
      (exec .default s ⟨4, .ack "w" "a"⟩).1 = .done := by
  let c₁ : Call := ⟨0, .enqueue "a" 0 (some (.plain "q" "t" 3))⟩
  let c₂ : Call := ⟨1, .dequeue ⟨"w", ["q"], millisecond⟩⟩
  let c₃ : Call := ⟨2, .reap "q" 1⟩
  let c₄ : Call := ⟨3, .dequeue ⟨"w", ["q"], millisecond⟩⟩
  let s₁ := (machine .default).next .empty c₁
  let s₂ := (machine .default).next s₁ c₂
  let s₃ := (machine .default).next s₂ c₃
  let s₄ := (machine .default).next s₃ c₄
  have hrun : (machine .default).Run (Admissible .default)
      ([⟨s₃, c₄⟩, ⟨s₂, c₃⟩] ++ ⟨s₁, c₂⟩ :: [⟨.empty, c₁⟩]) s₄ :=
    .step c₄ (.step c₃ (.step c₂ (.step c₁ .start ⟨by simp, by simp⟩)
      ⟨by simp [c₁, c₂], by simp [c₂]⟩) ⟨by simp [c₁, c₂, c₃], by simp [c₃]⟩)
      ⟨by simp [c₁, c₂, c₃, c₄], by simp [c₄]⟩
  have hclaim : Claimed .default ⟨s₁, c₂⟩ "w" "a" 1 := ⟨_, _, rfl, rfl, rfl, rfl, rfl⟩
  have hreap : Reaps .default ⟨s₂, c₃⟩ "a" := ⟨⟨_, _, rfl⟩, by decide +kernel⟩
  have hlease : ((seen .default s₄ ⟨4, .ack "w" "a"⟩).job "a").map
      (fun e ↦ (e.hash.state, e.hash.owner)) = some (.active, "w") := by decide +kernel
  have hdone : (exec .default s₄ ⟨4, .ack "w" "a"⟩).1 = .done := by
    obtain ⟨e, he, heq⟩ := Option.map_eq_some_iff.1 hlease
    obtain ⟨hact, hown⟩ := Prod.mk.inj heq
    exact (report_done_iff (.inl rfl)).2 ⟨e, he, hact, hown⟩
  exact ⟨⟨.empty, c₁⟩, ⟨s₁, c₂⟩, ⟨s₂, c₃⟩, ⟨s₃, c₄⟩, s₄, hrun, hclaim, hreap, hdone⟩

/-- **A stale report succeeds.** In both brokers there is a run in which a report by the holder of a
claim succeeds although a reap has ended that claim. -/
theorem stale_report_succeeds :
    (∃ newer t older b c, Memory.machine.Run Memory.Unreplayed (newer ++ t :: older) b ∧
      Memory.Claimed t "w" "a" 1 ∧ Memory.Reports c "w" "a" ∧ (Memory.exec b c).1 = .done ∧
      ∃ t' ∈ newer, Memory.Reaps t' "a") ∧
    (∃ newer t older s c,
      (Redis.machine .default).Run (Redis.Admissible .default) (newer ++ t :: older) s ∧
      Redis.Claimed .default t "w" "a" 1 ∧ Redis.Reports c "w" "a" ∧
      (Redis.exec .default s c).1 = .done ∧ ∃ t' ∈ newer, Redis.Reaps .default t' "a") := by
  obtain ⟨t₁, t₂, t₃, t₄, b, hrun, hclaim, hreap, hdone⟩ := Memory.reclaim_run
  obtain ⟨u₁, u₂, u₃, u₄, s, hrun', hclaim', hreap', hdone'⟩ := Redis.reclaim_run
  exact ⟨⟨_, _, _, _, _, hrun, hclaim, .inl rfl, hdone, t₃, by simp, hreap⟩,
    ⟨_, _, _, _, _, hrun', hclaim', .inl rfl, hdone', u₃, by simp, hreap'⟩⟩

/-- In the same runs the worker has claimed the job again. -/
theorem fencing_iff_not_reclaimed_reclaimed :
    (∃ newer t older b, Memory.machine.Run Memory.Unreplayed (newer ++ t :: older) b ∧
      Memory.Claimed t "w" "a" 1 ∧ Memory.Reclaimed b "w" "a" 1) ∧
    (∃ newer t older s c,
      (Redis.machine .default).Run (Redis.Admissible .default) (newer ++ t :: older) s ∧
      Redis.Claimed .default t "w" "a" 1 ∧
      Redis.Reclaimed (Redis.seen .default s c) "w" "a" 1) := by
  obtain ⟨t₁, t₂, t₃, t₄, b, hrun, hclaim, hreap, hdone⟩ := Memory.reclaim_run
  obtain ⟨u₁, u₂, u₃, u₄, s, hrun', hclaim', hreap', hdone'⟩ := Redis.reclaim_run
  refine ⟨⟨_, _, _, _, hrun, hclaim, by_contra fun hnot ↦ ?_⟩,
    ⟨_, _, _, _, ⟨4, .ack "w" "a"⟩, hrun', hclaim', by_contra fun hnot ↦ ?_⟩⟩
  · have hfence := (fencing_iff_not_reclaimed .default "w" "a" 1).1 hrun hclaim
      (show Memory.Reports ⟨22, .ack "w" "a"⟩ "w" "a" from .inl rfl)
    exact (hfence.2 hnot hdone t₃ (by simp)).1 hreap
  · have hfence := (fencing_iff_not_reclaimed .default "w" "a" 1).2 hrun' hclaim'
      (show Redis.Reports ⟨4, .ack "w" "a"⟩ "w" "a" from .inl rfl)
    exact (hfence.2 hnot hdone' u₃ (by simp)).1 hreap'

end TaskQueue
