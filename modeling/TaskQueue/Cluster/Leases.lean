import TaskQueue.Cluster.Model

/-!
# Who runs a job, and who holds its lease

A worker that claims a job gets a **lease** on it, and runs the handler in a goroutine of its own.
The two are tied together only by the commands in between: Redis does not know whether the goroutine
is still there, and the goroutine does not know whether the lease is.

As long as no `Reap` takes the job, whoever has an execution of it that has not reported holds the
lease, and there is no second one (`Alone`). The step lemma is `alone_next`: a claim needs a job
that is pending, and the only report that can end the lease is that of the execution itself. And a
`Reap` takes the job only if its server has been silent for the visibility timeout
(`lasts_of_run`).
-/

namespace TaskQueue.Redis

open Keyed Store Script

variable {cfg : Config} {s : Store} {c : Call} {id w : String} {l : Life} {d : ℤ}

/-- **What a claim does to the life of a job.** -/
theorem life_of_claimed {o : ClaimOpts} {j : Job} (hs : Located s) (hop : c.op = .dequeue o)
    (hclaim : (exec cfg s c).1 = .claimed j) : ∃ l d, s.life j.id = some l ∧ l.phase = .pending ∧
      (exec cfg s c).2.life j.id =
        some { l with attempt := l.attempt + 1, phase := .active o.workerID d } := by
  obtain ⟨h, hnext, hdecode⟩ := (claimed_iff hop).1 hclaim
  rw [(decodeJob_ok hdecode).2.1]
  have hsafe : Safe (seen cfg s c) c.op := by
    rw [hop]
    trivial
  have hevents : events cfg s c = [(h.id, .claimed h.owner h.deadline)] := by
    simp only [events, eventsOf, hop, hnext]
  obtain ⟨o', hfold, hshown⟩ := fold_of_exec hs hsafe h.id
  rw [hevents, eventsAt_cons_self] at hfold
  have hadv : Life.advance spent ((seen cfg s c).life h.id) (.claimed h.owner h.deadline) =
      some o' := by simpa [eventsAt] using hfold
  obtain ⟨l, hl, hpending, rfl⟩ := Life.advance_claimed_iff.1 hadv
  have hbefore := (hs.live cfg.visible c.now).2 h.id
  rw [show (s.live cfg.visible c.now).life h.id = some l from hl] at hbefore
  rw [(hash_of_claimNext (hs.live cfg.visible c.now).1 hnext).2.1] at hshown
  refine ⟨l, h.deadline, hbefore.eq_of_some, hpending, hshown.resolve_right fun hgone ↦ ?_⟩
  obtain ⟨-, _, ⟨⟩, hdone⟩ := hgone
  cases hdone

/-- A lease that is reaped has run out. -/
theorem expired_of_reapsOf (hs : Located s) (hmem : id ∈ reapsOf cfg ⟨s, c⟩) :
    ∃ l w d, s.life id = some l ∧ l.phase = .active w d ∧ d ≤ c.now := by
  rw [reapsOf] at hmem
  split at hmem
  · rw [reaped] at hmem
    split_ifs at hmem
    · cases hmem
    · cases hmem
    · obtain ⟨d, hlook, hle⟩ := mem_dueMembers hmem
      obtain ⟨l, w, hl, -, hphase⟩ := (lease_iff hs).1 hlook
      exact ⟨l, w, d, hl, hphase, hle⟩
  · cases hmem

/-- The turn claimed or renewed the job for worker `w`. -/
def Refreshes (cfg : Config) (t : Turn Store Call) (w id : String) : Prop :=
  ∃ d, (id, .claimed w d) ∈ events cfg t.before t.input ∨
    (id, .extended w d) ∈ events cfg t.before t.input

theorem not_refreshes_of_quiet (hquiet : eventsAt id (events cfg s c) = []) (w : String) :
    ¬ Refreshes cfg ⟨s, c⟩ w id := by
  rintro ⟨d, hev⟩
  rcases hev with hev | hev
  · exact List.not_mem_nil (hquiet ▸ mem_eventsAt.2 hev)
  · exact List.not_mem_nil (hquiet ▸ mem_eventsAt.2 hev)

end TaskQueue.Redis

namespace TaskQueue.Cluster

open Redis (Store Call Op Config exec milliseconds)
open Scheduler (Fate)
open Server (Worker Execution)

variable {H ι : Type} [DecidableEq ι] {nodes : ι → Node H} {cfg : Config} {quote : String → String}
  {h : List (Turn (System ι) (Move ι))} {s : System ι} {m : Move ι} {i : ι} {k : ℕ} {id : String}

/-! ### Executions -/

/-- Execution `k` of server `i` is one of the job, and has not been reported. -/
def Open (s : System ι) (i : ι) (k : ℕ) (id : String) : Prop :=
  ∃ e, (s.worker i).executions[k]? = some e ∧ e.job.id = id ∧ e.stage.isReported = false

/-- A new execution is the last one. -/
theorem index_of_claimed {sc : Server.Config} {w w' : Worker} {j : Job} {e : Execution}
    (hstep : Server.step sc w (.fetch (.dequeue (.job j))) = some w')
    (hnone : w.executions[k]? = none) (he : w'.executions[k]? = some e) :
    k = w.executions.length := by
  rcases Server.executions_of_step hstep with ⟨j', -, hex⟩ | ⟨_, _, ⟨⟩, -⟩ | ⟨_, _, _, _, ⟨⟩, -⟩ |
    ⟨-, hno, -⟩
  · rw [hex, Roster.getElem?_join] at he
    split_ifs at he with hk
    · exact hk
    · rw [hnone] at he
      cases he
  · exact absurd rfl (hno j)

/-- An execution that is open after a step of a server was open before it, or is new. -/
theorem open_of_step {sc : Server.Config} {w w' : Worker} {a : Server.Step} {e' : Execution}
    (hw : Server.Sound sc w) (hstep : Server.step sc w a = some w')
    (he' : w'.executions[k]? = some e') (hopen : e'.stage.isReported = false) :
    (∃ e, w.executions[k]? = some e ∧ e.job = e'.job ∧ e.stage.isReported = false ∧
      ∀ wall, a ≠ .job k (.report wall)) ∨
    a = .fetch (.dequeue (.job e'.job)) ∧ k = w.executions.length := by
  rcases Server.execution_of_step hstep k with ⟨b, e, st, rfl, he, hst, heq⟩ | ⟨hother, hcases⟩
  · obtain rfl := Option.some.inj (heq.symm.trans he')
    refine .inl ⟨e, he, rfl, ?_, fun wall hreport ↦ ?_⟩
    · change st.isReported = false at hopen
      rcases Server.Stage.advance_cases hst with ⟨-, hfrom, -⟩ | ⟨o, -, hfrom, -⟩ |
        ⟨now, err, -, hfrom, -⟩ | ⟨-, -, rfl⟩ | ⟨-, -, rfl⟩ | ⟨-, -, rfl⟩
      · rw [hfrom]
        rfl
      · rw [hfrom]
        rfl
      · rw [hfrom]
        rfl
      all_goals cases hopen
    · obtain ⟨-, rfl⟩ := Server.Step.job.inj hreport
      rcases Server.Stage.advance_cases hst with ⟨⟨⟩, -⟩ | ⟨_, ⟨⟩, -⟩ | ⟨_, _, -, -, rfl⟩ |
        ⟨⟨⟩, -⟩ | ⟨⟨⟩, -⟩ | ⟨⟨⟩, -⟩
      cases hopen
  · have hnever : ∀ wall, a ≠ .job k (.report wall) := fun wall ↦ hother _
    rcases hcases with heq | ⟨j, rfl, hnone, heq⟩ | ⟨e, hctl, he, heq⟩
    · exact .inl ⟨e', heq.symm.trans he', rfl, hopen, hnever⟩
    · obtain rfl := Option.some.inj (heq.symm.trans he')
      exact .inr ⟨rfl, index_of_claimed hstep hnone he'⟩
    · obtain rfl := Option.some.inj (heq.symm.trans he')
      refine .inl ⟨e, he, rfl, ?_, hnever⟩
      rw [(hw.claimed k e he).2 hctl]
      rfl

/-- What a move does to a server. -/
theorem worker_next (hok : Works nodes cfg quote h s m) (i : ι) :
    (∃ a now fate w', m = .act i a now fate ∧ (next nodes cfg s m).worker i = w' ∧
      Server.step (nodes i).config (s.worker i) (taken nodes cfg s i a now fate) = some w') ∨
    m = .crash i ∧ (next nodes cfg s m).worker i = .init ∨
    (∀ a now fate, m ≠ .act i a now fate) ∧ m ≠ .crash i ∧
      (next nodes cfg s m).worker i = s.worker i := by
  cases m with
  | call c => exact .inr (.inr ⟨by simp, by simp, rfl⟩)
  | act j a now fate =>
    by_cases hij : j = i
    · subst hij
      obtain ⟨w', hw'⟩ := Option.isSome_iff_exists.1 hok.2.1
      refine .inl ⟨a, now, fate, w', rfl, ?_, hw'⟩
      exact (Function.update_self ..).trans (congrArg (·.getD (s.worker j)) hw')
    · refine .inr (.inr ⟨fun a' now' fate' heq ↦ hij ?_, by simp, ?_⟩)
      · exact (Move.act.inj heq).1
      · exact Function.update_of_ne (Ne.symm hij) ..
  | crash j =>
    by_cases hij : j = i
    · subst hij
      exact .inr (.inl ⟨rfl, Function.update_self ..⟩)
    · exact .inr (.inr ⟨by simp, by simpa using hij, Function.update_of_ne (Ne.symm hij) ..⟩)

omit [DecidableEq ι] in
/-- A server that goes on with a job was given it by Redis. -/
theorem claimed_of_taken {a : Act} {now : ℤ} {fate : Fate} {j : Job}
    (hlocal : ∀ b, a = .own b → isLocal b = true)
    (htaken : taken nodes cfg s i a now fate = .fetch (.dequeue (.job j))) :
    ∃ queues, a = .poll queues ∧ fate = .answered ∧ (exec cfg s.store ⟨now, .dequeue
      ⟨(nodes i).config.workerID, queues, (nodes i).visibilityTimeout⟩⟩).1 = .claimed j := by
  cases a with
  | own b =>
    have hb := hlocal b rfl
    rw [show b = _ from htaken] at hb
    cases hb
  | poll queues =>
    refine ⟨queues, rfl, ?_⟩
    have hanswer : dequeued (answer nodes cfg s i (.poll queues) now fate) = .job j :=
      Server.FetchStep.dequeue.inj (Server.Step.fetch.inj htaken)
    rw [answer] at hanswer
    split_ifs at hanswer with hfate
    · rw [opOf, Option.map_some] at hanswer
      unfold dequeued at hanswer
      split at hanswer
      · next j' hreply =>
        obtain rfl := Server.Dequeued.job.inj hanswer
        exact ⟨hfate, Option.some.inj hreply⟩
      · cases hanswer
      · cases hanswer
    · cases hanswer
  | report k wall => cases htaken
  | renew => cases htaken

/-- **Where an open execution comes from.** -/
theorem open_next (hrun : (machine nodes cfg).Run (Works nodes cfg quote) h s)
    (hok : Works nodes cfg quote h s m) (hopen : Open (next nodes cfg s m) i k id) :
    Open s i k id ∧ (∀ wall now fate, m ≠ .act i (.report k wall) now fate) ∨
    ∃ queues now j, m = .act i (.poll queues) now .answered ∧ j.id = id ∧
      (exec cfg s.store ⟨now, .dequeue
        ⟨(nodes i).config.workerID, queues, (nodes i).visibilityTimeout⟩⟩).1 = .claimed j ∧
      k = (s.worker i).executions.length := by
  obtain ⟨e', he', hid, hunreported⟩ := hopen
  rcases worker_next hok i with ⟨a, now, fate, w', rfl, hw', hstep⟩ | ⟨rfl, hw'⟩ |
    ⟨hact, hcrash, hw'⟩
  · rw [hw'] at he'
    rcases open_of_step (Server.sound_of_run (run_worker hrun i)) hstep he' hunreported with
      ⟨e, he, hjob, hbefore, hnever⟩ | ⟨htaken, hk⟩
    · refine .inl ⟨⟨e, he, by rw [hjob, hid], hbefore⟩, fun wall now' fate' heq ↦ ?_⟩
      obtain ⟨-, rfl, -, -⟩ := Move.act.inj heq
      exact hnever wall rfl
    · obtain ⟨queues, rfl, rfl, hclaim⟩ := claimed_of_taken hok.2.2.1 htaken
      exact .inr ⟨queues, now, e'.job, rfl, hid, hclaim, hk⟩
  · rw [hw'] at he'
    cases he'
  · rw [hw'] at he'
    exact .inl ⟨⟨e', he', hid, hunreported⟩, fun wall now fate ↦ hact _ now fate⟩

omit [DecidableEq ι] in
/-- Whoever reports on a job is a server with an execution of it whose handler has ended. -/
theorem report_of_reports (hok : Works nodes cfg quote h s m) {c : Call} {w : String}
    (hc : callOf nodes s m = some c) (hrep : Redis.Reports c w id) :
    ∃ j k wall fate e err, m = .act j (.report k wall) c.now fate ∧
      (s.worker j).executions[k]? = some e ∧ e.stage = .returned err ∧
      c.op = reportOp (Server.report (nodes j).config wall e.job err) ∧ e.job.id = id := by
  have hworkers : isWorkers c.op = true := by
    rcases hrep with hop | ⟨_, _, hop⟩ | ⟨_, hop⟩ <;> rw [hop] <;> rfl
  obtain ⟨j, a, fate, rfl, -, hop⟩ := act_of_call hok hc hworkers
  rcases opOf_cases hop with ⟨queues, -, heq⟩ | ⟨k, wall, e, err, rfl, he, hst, heq⟩ |
    ⟨ids, failures, -, -, heq⟩
  · rcases hrep with hop | ⟨_, _, hop⟩ | ⟨_, hop⟩ <;> cases heq.symm.trans hop
  · refine ⟨j, k, wall, fate, e, err, rfl, he, hst, heq, ?_⟩
    rcases reportOp_cases (nodes j).config wall e.job err with hr | ⟨_, _, hr⟩ | ⟨_, hr⟩ <;>
    rcases hrep with hop | ⟨_, _, hop⟩ | ⟨_, hop⟩ <;>
    · cases (heq.trans hr).symm.trans hop
      try rfl
  · rcases hrep with hop | ⟨_, _, hop⟩ | ⟨_, hop⟩ <;> cases heq.symm.trans hop

omit [DecidableEq ι] in
theorem open_of_reports (hok : Works nodes cfg quote h s m) {c : Call} {w : String}
    (hc : callOf nodes s m = some c) (hrep : Redis.Reports c w id) :
    ∃ j k wall fate, m = .act j (.report k wall) c.now fate ∧ Open s j k id := by
  obtain ⟨j, k, wall, fate, e, err, hm, he, hst, -, hid⟩ := report_of_reports hok hc hrep
  exact ⟨j, k, wall, fate, hm, e, he, hid, by rw [hst]; rfl⟩

/-! ### Overlapping executions -/

variable (nodes) in
/-- At most one execution of the job is open, and its server holds the lease. -/
structure Alone (s : System ι) (id : String) : Prop where
  held : ∀ i k, Open s i k id → ∃ l d, s.store.life id = some l ∧
    l.phase = .active (nodes i).config.workerID d
  one : ∀ i k j n, Open s i k id → Open s j n id → i = j ∧ k = n

/-- A job that is claimed has no open execution, and then the one of the claim. -/
theorem alone_of_claimed (hrun : (machine nodes cfg).Run (Works nodes cfg quote) h s)
    {queues : List String} {now : ℤ} {j : Job}
    (hok : Works nodes cfg quote h s (.act i (.poll queues) now .answered))
    (hclaim : (exec cfg s.store ⟨now, .dequeue
      ⟨(nodes i).config.workerID, queues, (nodes i).visibilityTimeout⟩⟩).1 = .claimed j)
    (halone : Alone nodes s j.id) :
    Alone nodes (next nodes cfg s (.act i (.poll queues) now .answered)) j.id := by
  obtain ⟨l, d, hl, hpending, hafter⟩ := Redis.life_of_claimed (located_of_run hrun) rfl hclaim
  have hnone : ∀ i k, ¬ Open s i k j.id := by
    intro i k hopen
    obtain ⟨l', d', hl', hactive⟩ := halone.held i k hopen
    obtain rfl := Option.some.inj (hl.symm.trans hl')
    rw [hpending] at hactive
    cases hactive
  have hnew : ∀ i' k, Open (next nodes cfg s (.act i (.poll queues) now .answered)) i' k j.id →
      i' = i ∧ k = (s.worker i).executions.length := by
    intro i' k hopen
    rcases open_next hrun hok hopen with ⟨hbefore, -⟩ | ⟨_, _, _, heq, -, -, hk⟩
    · exact absurd hbefore (hnone i' k)
    · obtain rfl := (Move.act.inj heq).1
      exact ⟨rfl, hk⟩
  refine ⟨fun i' k hopen ↦ ?_, fun i₁ k₁ i₂ k₂ hopen₁ hopen₂ ↦ ?_⟩
  · rw [(hnew i' k hopen).1]
    exact ⟨_, d, hafter, rfl⟩
  · obtain ⟨rfl, rfl⟩ := hnew i₁ k₁ hopen₁
    obtain ⟨rfl, rfl⟩ := hnew i₂ k₂ hopen₂
    exact ⟨rfl, rfl⟩

/-- **One move keeps a job to one execution**, unless it reaps it. -/
theorem alone_next (hrun : (machine nodes cfg).Run (Works nodes cfg quote) h s)
    (hok : Works nodes cfg quote h s m)
    (hreap : ∀ c, callOf nodes s m = some c → id ∉ Redis.reapsOf cfg ⟨s.store, c⟩)
    (halone : Alone nodes s id) : Alone nodes (next nodes cfg s m) id := by
  by_cases hnew : ∃ i queues now j, m = .act i (.poll queues) now .answered ∧ j.id = id ∧
      (exec cfg s.store ⟨now, .dequeue
        ⟨(nodes i).config.workerID, queues, (nodes i).visibilityTimeout⟩⟩).1 = .claimed j
  · obtain ⟨i, queues, now, j, rfl, rfl, hclaim⟩ := hnew
    exact alone_of_claimed hrun hok hclaim halone
  have hold : ∀ i k, Open (next nodes cfg s m) i k id → Open s i k id ∧
      ∀ wall now fate, m ≠ .act i (.report k wall) now fate := by
    intro i k hopen
    refine (open_next hrun hok hopen).resolve_right ?_
    rintro ⟨queues, now, j, hm, hid, hclaim, -⟩
    exact hnew ⟨i, queues, now, j, hm, hid, hclaim⟩
  refine ⟨fun i k hopen ↦ ?_, fun i k j n hi hj ↦ ?_⟩
  swap
  · exact halone.one i k j n (hold i k hi).1 (hold j n hj).1
  obtain ⟨hbefore, hnever⟩ := hold i k hopen
  obtain ⟨l, d, hl, hactive⟩ := halone.held i k hbefore
  rcases hc : callOf nodes s m with - | c
  · rw [store_of_none hc]
    exact ⟨l, d, hl, hactive⟩
  · rw [store_of_some hc]
    refine Redis.active_of_exec (located_of_run hrun) (safe_of_works hrun hok hc) hl hactive
      (fun hrep ↦ ?_) (hreap c hc)
    -- the one that reports is the one that is open
    obtain ⟨j, n, wall, fate, rfl, hreporter⟩ := open_of_reports hok hc hrep
    obtain ⟨rfl, rfl⟩ := halone.one i k j n hbefore hreporter
    exact hnever wall c.now fate rfl

theorem alone_of_run (hrun : (machine nodes cfg).Run (Works nodes cfg quote) h s)
    (hreap : ∀ t ∈ calls nodes h, id ∉ Redis.reapsOf cfg t) : Alone nodes s id := by
  induction hrun with
  | start =>
    refine ⟨fun i k hopen ↦ ?_, fun i k j n hopen ↦ ?_⟩ <;>
    · obtain ⟨e, he, -⟩ := hopen
      cases he
  | @step h s m hrun hok ih =>
    rw [calls_cons] at hreap
    refine alone_next hrun hok (fun c hc ↦ hreap _ ?_)
      (ih fun t ht ↦ hreap t (List.mem_append_right _ ht))
    rw [hc]
    exact List.mem_append_left _ List.mem_cons_self

/-! ### How long a lease lasts -/

omit [DecidableEq ι] in
/-- Whoever dequeues is a server that polls. -/
theorem poll_of_dequeue (hok : Works nodes cfg quote h s m) {c : Call} {o : ClaimOpts}
    (hc : callOf nodes s m = some c) (hop : c.op = .dequeue o) :
    ∃ j queues fate, m = .act j (.poll queues) c.now fate ∧ fate ≠ .unsent ∧
      o = ⟨(nodes j).config.workerID, queues, (nodes j).visibilityTimeout⟩ := by
  obtain ⟨j, a, fate, rfl, hfate, hopOf⟩ := act_of_call hok hc (by rw [hop]; rfl)
  rw [hop] at hopOf
  rcases opOf_cases hopOf with ⟨queues, rfl, heq⟩ | ⟨k, wall, e, err, -, -, -, heq⟩ |
    ⟨ids, failures, -, -, heq⟩
  · exact ⟨j, queues, fate, rfl, hfate, Op.dequeue.inj heq⟩
  · rcases reportOp_cases (nodes j).config wall e.job err with hr | ⟨_, _, hr⟩ | ⟨_, hr⟩ <;>
      cases heq.trans hr
  · cases heq

omit [DecidableEq ι] in
/-- Whoever extends leases is a server that renews its own. -/
theorem renew_of_extend (hok : Works nodes cfg quote h s m) {c : Call} {w : String}
    {ids : List String} {vt : Duration} (hc : callOf nodes s m = some c)
    (hop : c.op = .extend w ids vt) :
    ∃ j, (nodes j).config.workerID = w ∧ (nodes j).visibilityTimeout = vt := by
  obtain ⟨j, a, fate, rfl, -, hopOf⟩ := act_of_call hok hc (by rw [hop]; rfl)
  rw [hop] at hopOf
  rcases opOf_cases hopOf with ⟨queues, -, heq⟩ | ⟨k, wall, e, err, -, -, -, heq⟩ |
    ⟨ids, failures, -, -, heq⟩
  · cases heq
  · rcases reportOp_cases (nodes j).config wall e.job err with hr | ⟨_, _, hr⟩ | ⟨_, hr⟩ <;>
      cases heq.trans hr
  · obtain ⟨rfl, -, rfl⟩ := Op.extend.inj heq
    exact ⟨j, rfl, rfl⟩

variable (nodes cfg) in
/-- A lease of worker `w` that ends at `d` is one of a server, and outlasts every claim and renewal
of the job by the visibility timeout of that server. -/
def Lasts (h : List (Turn (System ι) (Move ι))) (w id : String) (d : ℤ) : Prop :=
  ∃ i, (nodes i).config.workerID = w ∧ ∀ u ∈ calls nodes h, Redis.Refreshes cfg u w id →
    u.input.now + milliseconds (nodes i).visibilityTimeout ≤ d

omit [DecidableEq ι] in
/-- A claim or renewal gives a lease that lasts: nothing was done later. -/
theorem lasts_of_refreshed {c : Call} {w : String} (hok : Works nodes cfg quote h s m)
    (hc : callOf nodes s m = some c) (hworker : (nodes i).config.workerID = w) :
    Lasts nodes cfg (⟨s, m⟩ :: h) w id
      (c.now + milliseconds (nodes i).visibilityTimeout) := by
  refine ⟨i, hworker, fun u hu _ ↦ ?_⟩
  rw [calls_of_some hc] at hu
  rcases List.mem_cons.1 hu with rfl | hu
  · exact le_rfl
  · have hclock := (named_of_works hok hc).admissible.clock u hu
    exact Int.add_le_add_right hclock _

/-- **How long a lease lasts.** -/
theorem lasts_of_run (hrun : (machine nodes cfg).Run (Works nodes cfg quote) h s) {l : Life}
    {w : String} {d : ℤ} (hl : s.store.life id = some l) (hphase : l.phase = .active w d) :
    Lasts nodes cfg h w id d := by
  induction hrun generalizing l d with
  | start => cases hl
  | @step h s m hrun hok ih =>
    change (next nodes cfg s m).store.life id = some l at hl
    rcases hc : callOf nodes s m with - | c
    · rw [store_of_none hc] at hl
      rw [Lasts, calls_of_none hc]
      exact ih hl hphase
    rw [store_of_some hc] at hl
    have hloc := located_of_run hrun
    rcases Redis.life_of_exec hloc (safe_of_works hrun hok hc) hl with
      ⟨hquiet, hsame⟩ | ⟨ev, hev, o, hadv⟩
    · obtain ⟨i, hworker, hlasts⟩ := ih hsame hphase
      refine ⟨i, hworker, fun u hu href ↦ ?_⟩
      rw [calls_of_some hc] at hu
      rcases List.mem_cons.1 hu with rfl | hu
      · exact absurd href (Redis.not_refreshes_of_quiet hquiet w)
      · exact hlasts u hu href
    rcases Life.event_of_active hadv hphase with rfl | rfl
    · obtain ⟨o, hash, hop, hnext, -, howner, rfl⟩ := Redis.mem_events_iff.1 hev
      obtain ⟨j, queues, fate, -, -, rfl⟩ := poll_of_dequeue hok hc hop
      obtain ⟨-, hworker, hdeadline⟩ :=
        Redis.hash_of_claimNext (hloc.live cfg.visible c.now).1 hnext
      rw [hdeadline]
      exact lasts_of_refreshed hok hc (hworker.symm.trans howner)
    · obtain ⟨ids, vt, lost, hop, -, -, rfl⟩ := Redis.mem_events_iff.1 hev
      obtain ⟨j, hworker, rfl⟩ := renew_of_extend hok hc hop
      exact lasts_of_refreshed hok hc hworker

/-! ### Two servers -/

/-- The identifiers of two servers. -/
def serverID : Bool → String
  | false => "a"
  | true => "b"

/-- Two servers with one slot each and a visibility timeout of a millisecond, and with a handler for
one type of task. -/
def twoServers (b : Bool) : Node Unit where
  config := ⟨serverID b, 1, fun _ ↦ 0⟩
  visibilityTimeout := millisecond
  mux := (Mux.new.handle "t" (some ())).toOption.getD .new

/-- The first server claims a job, its lease runs out, and the second server claims it too. -/
def overlapping : List (Move Bool) :=
  [.call ⟨0, .enqueue "job" 0 (some (.plain "q" "t" 3))⟩,
    .act false (.own (.fetch .acquire)) 0 .answered, .act false (.poll ["q"]) 0 .answered,
    .call ⟨5, .reap "q" 10⟩, .act true (.own (.fetch .acquire)) 5 .answered,
    .act true (.poll ["q"]) 6 .answered]

/-- The two servers after some moves. -/
def played (moves : List (Move Bool)) : List (Turn (System Bool) (Move Bool)) × System Bool :=
  (machine twoServers .default).play [] (machine twoServers .default).init moves

theorem run_overlapping : (machine twoServers .default).Run (Works twoServers .default String.quote)
    (played overlapping).1 (played overlapping).2 := by
  refine .play overlapping .start ⟨⟨⟨⟨?_, ?_⟩, ?_⟩, rfl⟩, ⟨?_, ?_, ?_, ?_⟩, ⟨?_, ?_, ?_, ?_⟩,
    ⟨⟨⟨?_, ?_⟩, ?_⟩, rfl⟩, ⟨?_, ?_, ?_, ?_⟩, ⟨?_, ?_, ?_, ?_⟩, trivial⟩
  all_goals first | decide +kernel | simp [isLocal, calls]

/-! ### Results -/

/-- **A job runs twice at a time only after silence.** If two executions of one job are open, on one
server or on two, then a `Reap` took the job once from the server that held its lease, which had
neither claimed nor renewed it for its whole visibility timeout. So a job whose server renews in
time runs once at a time. -/
theorem overlap_needs_silence (hrun : (machine nodes cfg).Run (Works nodes cfg quote) h s) {j : ι}
    {n : ℕ} (hi : Open s i k id) (hj : Open s j n id) (hne : (i, k) ≠ (j, n)) :
    ∃ newer t older c holder, h = newer ++ t :: older ∧ callOf nodes t.before t.input = some c ∧
      id ∈ Redis.reapsOf cfg ⟨t.before.store, c⟩ ∧
      (∃ l d, t.before.store.life id = some l ∧
        l.phase = .active (nodes holder).config.workerID d) ∧
      ∀ u ∈ calls nodes older, Redis.Refreshes cfg u (nodes holder).config.workerID id →
        u.input.now + milliseconds (nodes holder).visibilityTimeout ≤ c.now := by
  by_contra hnever
  have hreap : ∀ u ∈ calls nodes h, id ∉ Redis.reapsOf cfg u := by
    intro u hu hmem
    obtain ⟨newer, t, older, rfl, hc, hstore⟩ := mem_calls hu
    obtain ⟨hbefore, -⟩ := hrun.of_append
    rw [show u = ⟨t.before.store, u.input⟩ from hstore ▸ rfl] at hmem
    obtain ⟨l, w, d, hl, hphase, hle⟩ :=
      Redis.expired_of_reapsOf (located_of_run hbefore) hmem
    obtain ⟨holder, rfl, hlasts⟩ := lasts_of_run hbefore hl hphase
    exact hnever ⟨newer, t, older, u.input, holder, rfl, hc, hmem, ⟨l, d, hl, hphase⟩,
      fun u hu href ↦ (hlasts u hu href).trans hle⟩
  obtain ⟨rfl, rfl⟩ := (alone_of_run hrun hreap).one i k j n hi hj
  exact hne rfl

theorem overlap_needs_silence_twoServers :
    Open (played overlapping).2 false 0 "job" ∧ Open (played overlapping).2 true 0 "job" ∧
    ∃ newer t older c holder, (played overlapping).1 = newer ++ t :: older ∧
      callOf twoServers t.before t.input = some c ∧
      "job" ∈ Redis.reapsOf .default ⟨t.before.store, c⟩ ∧
      (∃ l d, t.before.store.life "job" = some l ∧
        l.phase = .active (twoServers holder).config.workerID d) ∧
      ∀ u ∈ calls twoServers older,
        Redis.Refreshes .default u (twoServers holder).config.workerID "job" →
          u.input.now + milliseconds (twoServers holder).visibilityTimeout ≤ c.now := by
  have hfirst : Open (played overlapping).2 false 0 "job" := ⟨_, rfl, rfl, rfl⟩
  have hsecond : Open (played overlapping).2 true 0 "job" := ⟨_, rfl, rfl, rfl⟩
  exact ⟨hfirst, hsecond, overlap_needs_silence run_overlapping hfirst hsecond (by simp)⟩

end TaskQueue.Cluster
