import TaskQueue.Cluster.Leases
import TaskQueue.Redis.Accounting

/-!
# Where a lease comes from

A lease does not say that the job is running: Redis does not know whether the goroutine of the job
is still there. `Traced` says what has become of the claim a lease comes from: the answer was lost
on the way, the process died, or there is an execution of the job whose report is still to come or
was not sent. The step lemma is `Traced.next`: a trace goes on until a report of the job arrives,
and then the lease is gone too (`settled_of_reports`).
-/

namespace TaskQueue.Redis

open Keyed Store Script

variable {cfg : Config} {s : Store} {c : Call} {id w : String} {l : Life} {d : ℤ}

/-- A report of the holder of a lease does something. -/
theorem settled_of_reports (hs : Located s) (hl : s.life id = some l)
    (hphase : l.phase = .active w d) (hrep : Reports c w id) :
    eventsAt id (events cfg s c) ≠ [] := by
  have hseen := seen_life cfg c hs hl (by rw [hphase]; simp)
  obtain ⟨e, he, rfl⟩ := Option.map_eq_some_iff.1 hseen
  have hactive : (seen cfg s c).phase id e.hash = .active w d := hphase
  have howned : e.hash.state = .active ∧ e.hash.owner = w := by
    cases hstate : e.hash.state <;> simp_all [Store.phase]
  have hdone := (report_done_iff hrep).2 ⟨e, he, howned⟩
  have hev : ∃ ev, (id, ev) ∈ events cfg s c := by
    rcases hrep with hop | ⟨r, reason, hop⟩ | ⟨reason, hop⟩
    · exact ⟨.acked w, mem_events_iff.2 ⟨hop, hdone⟩⟩
    · exact ⟨.nacked w _, mem_events_iff.2 ⟨r, reason, hop, hdone, rfl⟩⟩
    · exact ⟨.killed w, mem_events_iff.2 ⟨reason, hop, hdone⟩⟩
  obtain ⟨ev, hev⟩ := hev
  exact List.ne_nil_of_mem (mem_eventsAt.2 hev)

/-- What the script of a `Dequeue` claimed is returned. -/
theorem claimed_of_claimNext {h : List (Turn Store Call)} {o : ClaimOpts} {hash : Hash}
    (hrun : (machine cfg).Run (Named cfg) h s) (hop : c.op = .dequeue o)
    (hnext : (claimNext (seen cfg s c) c.now o).1 = .ok hash) :
    ∃ j, (exec cfg s c).1 = .claimed j ∧ j.id = hash.id := by
  have hseen := ((located_of_run (Named.run hrun)).live cfg.visible c.now).1
  have hid : hash.id ≠ "" := by
    rcases claimNext_cases hseen c.now o with ⟨err, heq⟩ | ⟨-, q, -, i, rest, e, -, he, heq⟩
    · rw [show claimNext (seen cfg s c) c.now o = _ from heq] at hnext
      cases hnext
    · rw [show claimNext (seen cfg s c) c.now o = _ from heq] at hnext
      obtain rfl := Except.ok.inj hnext
      rw [show (claimed _ _ _ e.hash).id = i from hseen.keyed i e he]
      exact id_ne_empty (Named.issued hrun) (Option.filter_eq_some_iff.1 he).1
  obtain ⟨j, hj, hjid⟩ := decodeJob_of_ne hid
  exact ⟨j, (claimed_iff hop).2 ⟨hash, hnext, hj⟩, hjid⟩

/-- Only a lease is renewed. -/
theorem active_of_renewed {ids : List String}
    (hmem : id ∈ renewed (seen cfg s c) w ids) :
    ∃ l d, s.life id = some l ∧ l.phase = .active w d := by
  have hfence := (List.mem_filter.1 hmem).2
  rcases hres : fence (seen cfg s c) w id with r | h
  · rw [hres] at hfence
    cases hfence
  · obtain ⟨e, he, rfl, hact, rfl⟩ := fence_eq_ok.1 hres
    refine ⟨_, e.hash.deadline, life_eq_some (Option.filter_eq_some_iff.1 he).1, ?_⟩
    simp [Store.phase, hact]

end TaskQueue.Redis

namespace TaskQueue.Cluster

open Redis (Store Call Op Config exec)
open Scheduler (Fate)
open Server (Worker Execution)

variable {H ι : Type} [DecidableEq ι] {nodes : ι → Node H} {cfg : Config} {quote : String → String}
  {h : List (Turn (System ι) (Move ι))} {s : System ι} {m : Move ι} {i : ι} {k : ℕ} {id : String}

/-! ### Where a lease comes from -/

variable (nodes cfg) in
/-- The turn was a poll of server `i` that claimed the job, and this became of its command. -/
def Claims (t : Turn (System ι) (Move ι)) (i : ι) (id : String) (fate : Fate) : Prop :=
  ∃ queues now, t.input = .act i (.poll queues) now fate ∧ fate ≠ .unsent ∧
    Redis.claimOf cfg ⟨t.before.store, now, .dequeue
      ⟨(nodes i).config.workerID, queues, (nodes i).visibilityTimeout⟩⟩ = some id

/-- The report of an execution was not sent. -/
def Unsent (t : Turn (System ι) (Move ι)) (i : ι) (k : ℕ) : Prop :=
  ∃ wall now, t.input = .act i (.report k wall) now .unsent

variable (nodes cfg) in
/-- What has become of the latest claim of the job, one of server `i`: the answer was lost, the
server has died since, or there is an execution of the job whose report has not been made or was
not sent. -/
def Traced (h : List (Turn (System ι) (Move ι))) (s : System ι) (i : ι) (id : String) : Prop :=
  ∃ newer t older fate, h = newer ++ t :: older ∧ Claims nodes cfg t i id fate ∧
    (∀ t' ∈ newer, ∀ j f, ¬ Claims nodes cfg t' j id f) ∧
    (fate = .lost ∨ (∃ t' ∈ newer, t'.input = .crash i) ∨
      ∃ k e, (s.worker i).executions[k]? = some e ∧ e.job.id = id ∧
        (e.stage.isReported = false ∨ ∃ t' ∈ newer, Unsent t' i k))

omit [DecidableEq ι] in
/-- A server that reports does so with Redis. -/
theorem report_of_taken {a : Act} {now : ℤ} {fate : Fate} {wall : Time}
    (hlocal : ∀ b, a = .own b → isLocal b = true)
    (htaken : taken nodes cfg s i a now fate = .job k (.report wall)) : a = .report k wall := by
  cases a with
  | own b =>
    have hb := hlocal b rfl
    rw [show b = _ from htaken] at hb
    cases hb
  | poll queues => cases htaken
  | report k' wall' =>
    obtain ⟨rfl, heq⟩ := Server.Step.job.inj htaken
    rw [Server.JobStep.report.inj heq]
  | renew => cases htaken

/-- What a move does to an execution. -/
theorem execution_next (hok : Works nodes cfg quote h s m) {e : Execution}
    (he : (s.worker i).executions[k]? = some e) : m = .crash i ∨
      ∃ e', ((next nodes cfg s m).worker i).executions[k]? = some e' ∧ e'.job = e.job ∧
        (e.stage.isReported = false → e'.stage.isReported = false ∨
          ∃ wall now fate, m = .act i (.report k wall) now fate) := by
  rcases worker_next hok i with ⟨a, now, fate, w', rfl, hw', hstep⟩ | ⟨rfl, -⟩ | ⟨-, -, hw'⟩
  · refine .inr ?_
    rw [hw']
    rcases Server.execution_of_step hstep k with ⟨b, e₀, st, htaken, he₀, hst, heq⟩ |
      ⟨-, heq | ⟨j, -, hnone, -⟩ | ⟨e₀, -, he₀, heq⟩⟩
    · obtain rfl := Option.some.inj (he₀.symm.trans he)
      refine ⟨_, heq, rfl, fun hopen ↦ ?_⟩
      rcases Server.Stage.advance_cases hst with ⟨-, -, rfl⟩ | ⟨o, -, -, rfl⟩ |
        ⟨wall, err, rfl, -, -⟩ | ⟨-, hfrom, -⟩ | ⟨-, hfrom, -⟩ | ⟨-, hfrom, -⟩
      · exact .inl rfl
      · exact .inl rfl
      · exact .inr ⟨wall, now, fate, congrArg (Move.act i · now fate)
          (report_of_taken hok.2.2.1 htaken)⟩
      all_goals
        rw [hfrom] at hopen
        cases hopen
    · exact ⟨e, heq.trans he, rfl, .inl⟩
    · rw [hnone] at he
      cases he
    · obtain rfl := Option.some.inj (he₀.symm.trans he)
      exact ⟨_, heq, rfl, fun _ ↦ .inl rfl⟩
  · exact .inl rfl
  · rw [hw']
    exact .inr ⟨e, he, rfl, .inl⟩

omit [DecidableEq ι] in
/-- A claim is an event of the call that the server makes. -/
theorem Claims.claimed {fate : Fate} (hclaims : Claims nodes cfg ⟨s, m⟩ i id fate) :
    ∃ c, callOf nodes s m = some c ∧ (∃ o, c.op = .dequeue o) ∧
      Keyed.eventsAt id (Redis.events cfg s.store c) ≠ [] := by
  obtain ⟨queues, now, rfl, hsent, hclaim⟩ := hclaims
  refine ⟨_, by rw [callOf, if_neg hsent]; rfl, ⟨_, rfl⟩, fun hnil ↦ ?_⟩
  obtain ⟨e, he, -⟩ := Redis.claimOf_iff.1 hclaim
  rw [hnil] at he
  cases he

/-- A trace goes on, unless the move claims the job or reports an open execution of it. -/
theorem Traced.next (hok : Works nodes cfg quote h s m) (htraced : Traced nodes cfg h s i id)
    (hclaim : ∀ j f, ¬ Claims nodes cfg ⟨s, m⟩ j id f)
    (hreport : ∀ k wall now fate, m = .act i (.report k wall) now fate → Open s i k id →
      fate = .unsent) : Traced nodes cfg (⟨s, m⟩ :: h) (next nodes cfg s m) i id := by
  obtain ⟨newer, t, older, fate, rfl, hclaims, hlatest, hcause⟩ := htraced
  refine ⟨⟨s, m⟩ :: newer, t, older, fate, rfl, hclaims,
    List.forall_mem_cons.2 ⟨hclaim, hlatest⟩, ?_⟩
  rcases hcause with hlost | ⟨t', ht', hcrash⟩ | ⟨k, e, he, hid, hcause⟩
  · exact .inl hlost
  · exact .inr (.inl ⟨t', List.mem_cons_of_mem _ ht', hcrash⟩)
  · rcases execution_next hok he with hcrash | ⟨e', he', hjob, hstays⟩
    · exact .inr (.inl ⟨_, List.mem_cons_self, hcrash⟩)
    · refine .inr (.inr ⟨k, e', he', by rw [hjob, hid], ?_⟩)
      rcases hcause with hopen | ⟨t', ht', hunsent⟩
      · rcases hstays hopen with hstill | ⟨wall, now, fate, hm⟩
        · exact .inl hstill
        · obtain rfl := hreport k wall now fate hm ⟨e, he, hid, hopen⟩
          exact .inr ⟨_, List.mem_cons_self, wall, now, hm⟩
      · exact .inr ⟨t', List.mem_cons_of_mem _ ht', hunsent⟩

omit [DecidableEq ι] in
/-- A report of an open execution that is sent is a report on its job. -/
theorem reports_of_act {wall : Time} {now : ℤ} {fate : Fate}
    (hok : Works nodes cfg quote h s (.act i (.report k wall) now fate)) (hopen : Open s i k id)
    (hsent : fate ≠ .unsent) : ∃ c, callOf nodes s (.act i (.report k wall) now fate) = some c ∧
      Redis.Reports c (nodes i).config.workerID id := by
  obtain ⟨e, he, rfl, -⟩ := hopen
  obtain ⟨w', hstep⟩ := Option.isSome_iff_exists.1 hok.2.1
  obtain ⟨e₀, st, s₁, he₀, hst, -⟩ := Server.runJob_eq_some hstep
  obtain rfl := Option.some.inj (he₀.symm.trans he)
  rcases Server.Stage.advance_cases hst with ⟨⟨⟩, -⟩ | ⟨_, ⟨⟩, -⟩ | ⟨_, err, -, hfrom, -⟩ |
    ⟨⟨⟩, -⟩ | ⟨⟨⟩, -⟩ | ⟨⟨⟩, -⟩
  refine ⟨⟨now, reportOp (Server.report (nodes i).config wall e₀.job err)⟩, ?_, ?_⟩
  · rw [callOf, if_neg hsent, opOf, he, Option.bind_some, hfrom]
    rfl
  · exact reportOp_cases _ wall e₀.job err

/-- A claim of a job leaves a trace. -/
theorem traced_of_claimed (hids : Function.Injective fun i ↦ (nodes i).config.workerID)
    (hrun : (machine nodes cfg).Run (Works nodes cfg quote) h s)
    (hok : Works nodes cfg quote h s m) {c : Call} (hc : callOf nodes s m = some c) {d : ℤ}
    (hev : (id, .claimed (nodes i).config.workerID d) ∈ Redis.events cfg s.store c) :
    Traced nodes cfg (⟨s, m⟩ :: h) (next nodes cfg s m) i id := by
  obtain ⟨o, hash, hop, hnext, rfl, howner, -⟩ := Redis.mem_events_iff.1 hev
  obtain ⟨j, queues, fate, rfl, hsent, rfl⟩ := poll_of_dequeue hok hc hop
  have hseen := ((located_of_run hrun).live cfg.visible c.now).1
  obtain rfl : j = i := hids ((Redis.hash_of_claimNext hseen hnext).2.1.symm.trans howner)
  obtain ⟨now, op⟩ := c
  change op = _ at hop
  subst hop
  have hclaims : Claims nodes cfg ⟨s, .act j (.poll queues) now fate⟩ j hash.id fate := by
    refine ⟨queues, now, rfl, hsent, ?_⟩
    simp only [Redis.claimOf, hnext]
  refine ⟨[], _, h, fate, rfl, hclaims, by simp, ?_⟩
  rcases fate with - | - | -
  · -- the answer arrives, and the job is in the hands of the fetch loop
    obtain ⟨j', hreply, hid⟩ := Redis.claimed_of_claimNext (run_calls hrun) rfl hnext
    obtain ⟨w', hstep⟩ := Option.isSome_iff_exists.1 hok.2.1
    have htaken : taken nodes cfg s j (.poll queues) now .answered =
        .fetch (.dequeue (.job j')) := by
      simp only [taken, stepOf, answer, if_true, opOf, Option.map_some, hreply, dequeued]
    have hw' : (next nodes cfg s (.act j (.poll queues) now .answered)).worker j = w' :=
      (Function.update_self ..).trans (congrArg (·.getD (s.worker j)) hstep)
    rw [htaken] at hstep
    rcases Server.executions_of_step hstep with ⟨j'', heq, hex⟩ | ⟨_, _, ⟨⟩, -⟩ |
      ⟨_, _, _, _, ⟨⟩, -⟩ | ⟨-, hno, -⟩
    · obtain rfl : j' = j'' :=
        Server.Dequeued.job.inj (Server.FetchStep.dequeue.inj (Server.Step.fetch.inj heq))
      refine .inr (.inr ⟨(s.worker j).executions.length, ⟨j', .claimed⟩, ?_, hid, .inl rfl⟩)
      rw [hw', hex, Roster.getElem?_join, if_pos rfl]
    · exact absurd rfl (hno j')
  · exact .inl rfl
  · exact absurd rfl hsent

/-- **Every lease is accounted for.** -/
theorem traced_of_run (hids : Function.Injective fun i ↦ (nodes i).config.workerID)
    (hrun : (machine nodes cfg).Run (Works nodes cfg quote) h s) {l : Life} {d : ℤ}
    (hl : s.store.life id = some l) (hphase : l.phase = .active (nodes i).config.workerID d) :
    Traced nodes cfg h s i id := by
  induction hrun generalizing l d with
  | start => cases hl
  | @step h s m hrun hok ih =>
    have hloc := located_of_run hrun
    change (next nodes cfg s m).store.life id = some l at hl
    rcases hc : callOf nodes s m with - | c
    · rw [store_of_none hc] at hl
      refine (ih hl hphase).next hok (fun j f hclaims ↦ ?_) fun k wall now fate hm hopen ↦ ?_
      · obtain ⟨c, hc', -⟩ := hclaims.claimed
        rw [hc] at hc'
        cases hc'
      subst hm
      by_contra hsent
      obtain ⟨c, hc', -⟩ := reports_of_act hok hopen hsent
      rw [hc] at hc'
      cases hc'
    rw [store_of_some hc] at hl
    rcases Redis.life_of_exec hloc (safe_of_works hrun hok hc) hl with
      ⟨hquiet, hsame⟩ | ⟨ev, hev, o, hadv⟩
    · refine (ih hsame hphase).next hok (fun j f hclaims ↦ ?_) fun k wall now fate hm hopen ↦ ?_
      · obtain ⟨c', hc', -, hclaimed⟩ := hclaims.claimed
        obtain rfl := Option.some.inj (hc'.symm.trans hc)
        exact hclaimed hquiet
      subst hm
      by_contra hsent
      obtain ⟨c', hc', hrep⟩ := reports_of_act hok hopen hsent
      obtain rfl := Option.some.inj (hc'.symm.trans hc)
      exact Redis.settled_of_reports hloc hsame hphase hrep hquiet
    rcases Life.event_of_active hadv hphase with rfl | rfl
    · exact traced_of_claimed hids hrun hok hc hev
    · obtain ⟨ids, vt, lost, hop, -, hmem, -⟩ := Redis.mem_events_iff.1 hev
      obtain ⟨l₀, d₀, hl₀, hphase₀⟩ := Redis.active_of_renewed hmem
      refine (ih hl₀ hphase₀).next hok (fun j f hclaims ↦ ?_) fun k wall now fate hm hopen ↦ ?_
      · obtain ⟨c', hc', ⟨o', hop'⟩, -⟩ := hclaims.claimed
        obtain rfl := Option.some.inj (hc'.symm.trans hc)
        cases hop.symm.trans hop'
      subst hm
      by_contra hsent
      obtain ⟨c', hc', hrep⟩ := reports_of_act hok hopen hsent
      obtain rfl := Option.some.inj (hc'.symm.trans hc)
      rcases hrep with hop' | ⟨_, _, hop'⟩ | ⟨_, hop'⟩ <;> cases hop.symm.trans hop'

/-- The first server claims a job without being told, and stops. -/
def stoppedUnaware : List (Move Bool) :=
  [.call ⟨0, .enqueue "job" 0 (some (.plain "q" "t" 3))⟩,
    .act false (.own (.fetch .acquire)) 0 .answered, .act false (.poll ["q"]) 0 .lost,
    .act false (.own (.fetch .giveBack)) 0 .answered, .act false (.own .cancel) 0 .answered,
    .act false (.own (.fetch .check)) 0 .answered, .act false (.own (.drain .close)) 0 .answered,
    .act false (.own (.drain .finish)) 0 .answered, .act false (.own (.renew .stop)) 0 .answered,
    .act false (.own (.drain .leave)) 0 .answered]

theorem run_stoppedUnaware : (machine twoServers .default).Run
    (Works twoServers .default String.quote) (played stoppedUnaware).1
    (played stoppedUnaware).2 := by
  refine .play stoppedUnaware .start ⟨⟨⟨⟨?_, ?_⟩, ?_⟩, rfl⟩, ⟨?_, ?_, ?_, ?_⟩, ⟨?_, ?_, ?_, ?_⟩,
    ⟨?_, ?_, ?_, ?_⟩, ⟨?_, ?_, ?_, ?_⟩, ⟨?_, ?_, ?_, ?_⟩, ⟨?_, ?_, ?_, ?_⟩, ⟨?_, ?_, ?_, ?_⟩,
    ⟨?_, ?_, ?_, ?_⟩, ⟨?_, ?_, ?_, ?_⟩, trivial⟩
  all_goals first | decide +kernel | simp [isLocal, calls]

theorem twoServers_injective : Function.Injective fun b ↦ (twoServers b).config.workerID := by
  decide

/-- **Every lease is accounted for.** The latest claim of a job that is leased to a server is one of
that server, and since then its answer was lost, the process died, or an execution of the job has
not reported or could not. So a server that stopped well leaves a lease behind only if it never
heard of the job, or if it died in between, or if its report did not reach Redis. -/
theorem lease_accounted (hids : Function.Injective fun i ↦ (nodes i).config.workerID)
    (hrun : (machine nodes cfg).Run (Works nodes cfg quote) h s) {l : Life} {d : ℤ}
    (hl : s.store.life id = some l) (hphase : l.phase = .active (nodes i).config.workerID d) :
    Traced nodes cfg h s i id ∧ ((s.worker i).control = .returned none →
      ∃ newer t older fate, h = newer ++ t :: older ∧ Claims nodes cfg t i id fate ∧
        (∀ t' ∈ newer, ∀ j f, ¬ Claims nodes cfg t' j id f) ∧
        (fate = .lost ∨ (∃ t' ∈ newer, t'.input = .crash i) ∨
          ∃ t' ∈ newer, ∃ k e, Unsent t' i k ∧ (s.worker i).executions[k]? = some e ∧
            e.job.id = id)) := by
  have htraced := traced_of_run hids hrun hl hphase
  refine ⟨htraced, fun hstop ↦ ?_⟩
  obtain ⟨newer, t, older, fate, rfl, hclaims, hlatest, hcause⟩ := htraced
  refine ⟨newer, t, older, fate, rfl, hclaims, hlatest, ?_⟩
  rcases hcause with hlost | hcrash | ⟨k, e, he, hid, hopen | ⟨t', ht', hunsent⟩⟩
  · exact .inl hlost
  · exact .inr (.inl hcrash)
  · have hreported := (Server.sound_of_run (run_worker hrun i)).reported_of_ended
      (by rw [hstop]; rfl) he
    rw [hopen] at hreported
    cases hreported
  · exact .inr (.inr ⟨t', ht', k, e, hunsent, he, hid⟩)

theorem lease_accounted_stoppedUnaware :
    ((played stoppedUnaware).2.worker false).control = .returned none ∧
    ∃ newer t older fate, (played stoppedUnaware).1 = newer ++ t :: older ∧
      Claims twoServers .default t false "job" fate ∧
      (∀ t' ∈ newer, ∀ j f, ¬ Claims twoServers .default t' j "job" f) ∧
      (fate = .lost ∨ (∃ t' ∈ newer, t'.input = .crash false) ∨
        ∃ t' ∈ newer, ∃ k e, Unsent t' false k ∧
          ((played stoppedUnaware).2.worker false).executions[k]? = some e ∧
          e.job.id = "job") := by
  have hstop : ((played stoppedUnaware).2.worker false).control = .returned none := rfl
  have hlease : (played stoppedUnaware).2.store.life "job" =
      some ⟨"q", 3, 1, 0, .active "a" 1⟩ := rfl
  exact ⟨hstop, (lease_accounted twoServers_injective run_stoppedUnaware hlease rfl).2 hstop⟩

end TaskQueue.Cluster
