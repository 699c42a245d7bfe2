import TaskQueue.Cluster.Leases

/-!
# What a job's end says about its handlers

A completed job was completed by an `Ack`, and an `Ack` is what `runJob` sends when a handler
returned nil. That is one line of `runJob`; in a cluster it is a statement about the past of another
process. The execution that reports was started by an answer of Redis, its handler ended in a step
of its own, the process may have died in between and been started again under the same name, and the
`Ack` may succeed on a claim that is not the one of the execution. What survives all of that is
this: **the job that was acked is one for which a handler has returned nil** (`handled_of_reports`
leads from a report to the call of the handler), and the handler is the one that the server has
registered for the type that the job was enqueued with.

The same goes for the dead. A job is dead because a handler asked for it with `ErrSkipRetry`, or
because its attempts are spent. So a job of a type that nobody handles is never completed and never
killed: it ends in the dead-letter set, after all of its attempts.
-/

namespace TaskQueue.Server

variable {cfg : Config} {h : List (Turn Worker Step)} {s : Worker} {t : Turn Worker Step} {k : ℕ}
  {e e' : Execution}

/-- An execution is of the same job all the time. -/
theorem job_of_mem (hrun : Run cfg h s) (ht : t ∈ h) (he' : t.before.executions[k]? = some e')
    (he : s.executions[k]? = some e) : e'.job = e.job := by
  obtain ⟨newer, older, rfl⟩ := List.append_of_mem ht
  have hbefore := claimedJobs_of_run hrun.of_append.1
  have hafter := claimedJobs_of_run hrun
  have hsplit : claimedJobs (newer ++ t :: older) =
      claimedJobs older ++ ((t :: newer.reverse).filterMap claims) := by
    simp [claimedJobs, List.filterMap_append]
  rw [hsplit, hbefore] at hafter
  have hat : (t.before.executions.map Execution.job)[k]? = some e'.job := by
    rw [List.getElem?_map, he']
    rfl
  have hsame : (s.executions.map Execution.job)[k]? = some e'.job := by
    rw [← hafter, List.getElem?_append_left (List.getElem?_eq_some_iff.1 hat).1, hat]
  rw [List.getElem?_map, he] at hsame
  exact (Option.some.inj hsame).symm

end TaskQueue.Server

namespace TaskQueue.Redis

open Store

variable {cfg : Config} {s : Store} {h : List (Turn Store Call)} {id : String}

/-- A dead job was killed, or it was claimed as often as it may be. -/
theorem killed_or_spent (hrun : (machine cfg).Run (Fresh cfg) h s)
    (hdead : (s.dead.lookup id).isSome) :
    Killed cfg h id ∨ ∃ t ∈ h, ∃ j, reply cfg t = .stored j ∧ j.id = id ∧
      spent (claims cfg h id) j.maxAttempts = true := by
  obtain ⟨hloc, a, hfollows, hshown⟩ := lives_of_fresh hrun
  obtain ⟨l, hl, hphase⟩ := (dead_iff hloc).1 hdead
  obtain ⟨e, he, rfl⟩ := Option.map_eq_some_iff.1 hl
  have hlife := (life_eq_some he ▸ hshown id).eq_of_some
  obtain ⟨_, -, _, _, _, _, -, -, -, -, evs, hevs, -, htally⟩ := tally_of_follows hfollows hlife
  rcases htally.dead_cause hphase with ⟨w, hw⟩ | hspent
  · have hmem : (id, .killed w) ∈ history (events cfg) h :=
      Keyed.mem_eventsAt.1 (hevs ▸ List.mem_cons_of_mem _ hw)
    obtain ⟨t, ht, hdid⟩ := mem_history.1 hmem
    obtain ⟨reason, hop, hreply⟩ := mem_events_iff.1 hdid
    exact .inl ⟨t, ht, w, reason, hop, hreply⟩
  · obtain ⟨t, ht, j, hstored, hid, henv, -⟩ := hash_of_run hrun id e he
    refine .inr ⟨t, ht, j, hstored, hid, ?_⟩
    have hmax : e.hash.maxAttempts = j.maxAttempts := congrArg Envelope.maxAttempts henv
    rw [← (counts_of_run hrun he).1, ← hmax]
    exact hspent

/-- What a `Dequeue` returns was stored under its ID, with its type and its payload. -/
theorem stored_of_claimed {c : Call} {o : ClaimOpts} {j : Job}
    (hrun : (machine cfg).Run (Fresh cfg) h s) (hop : c.op = .dequeue o)
    (hclaim : (exec cfg s c).1 = .claimed j) : ∃ t ∈ h, ∃ j', reply cfg t = .stored j' ∧
      j'.id = j.id ∧ j'.type = j.type ∧ j'.payload = j.payload := by
  obtain ⟨id, e, hjob, -, hdecode⟩ := hash_of_claimed (lives_of_fresh hrun).1 hop hclaim
  obtain ⟨t, ht, j', hstored, rfl, henv, -⟩ := hash_of_run hrun id e hjob
  rw [decodeJob] at hdecode
  split_ifs at hdecode
  obtain rfl := Except.ok.inj hdecode
  exact ⟨t, ht, j', hstored, congrArg Envelope.id henv.symm, congrArg Envelope.type henv.symm,
    congrArg Envelope.payload henv.symm⟩

end TaskQueue.Redis

namespace TaskQueue.Cluster

open Redis (Store Call Op Config exec)
open Scheduler (Fate)
open Server (Worker Execution Outcome HandlerError invoke)

variable {H ι : Type} [DecidableEq ι] {nodes : ι → Node H} {cfg : Config} {quote : String → String}
  {h : List (Turn (System ι) (Move ι))} {s : System ι} {m : Move ι} {i : ι} {k : ℕ} {id : String}

/-! ### The past of an execution -/

/-- A turn of a server is one of the cluster. -/
theorem mem_past {u : Turn Worker Server.Step} : ∀ {h : List (Turn (System ι) (Move ι))},
    u ∈ past nodes cfg i h → ∃ t ∈ h, ∃ a now fate, t.input = .act i a now fate ∧
      u = ⟨t.before.worker i, taken nodes cfg t.before i a now fate⟩
  | [], hu => by cases hu
  | ⟨s, m⟩ :: h, hu => by
    have hlater (hold : u ∈ past nodes cfg i h) : ∃ t ∈ ⟨s, m⟩ :: h, ∃ a now fate,
        t.input = .act i a now fate ∧
        u = ⟨t.before.worker i, taken nodes cfg t.before i a now fate⟩ := by
      obtain ⟨t, ht, hrest⟩ := mem_past hold
      exact ⟨t, List.mem_cons_of_mem _ ht, hrest⟩
    cases m with
    | call c => exact hlater hu
    | act j a now fate =>
      rw [past_act] at hu
      split_ifs at hu with hij
      · subst hij
        rcases List.mem_cons.1 hu with rfl | hold
        · exact ⟨_, List.mem_cons_self, a, now, fate, rfl, rfl⟩
        · exact hlater hold
      · exact hlater hu
    | crash j =>
      rw [past_crash] at hu
      split_ifs at hu
      · cases hu
      · exact hlater hu

variable (nodes cfg) in
/-- A job was stored under the ID of `j`, with its type and its payload. -/
def StoredAs (h : List (Turn (System ι) (Move ι))) (j : Job) : Prop :=
  ∃ t ∈ calls nodes h, ∃ j', Redis.reply cfg t = .stored j' ∧ j'.id = j.id ∧ j'.type = j.type ∧
    j'.payload = j.payload

omit [DecidableEq ι] in
theorem StoredAs.mono (newer : List (Turn (System ι) (Move ι))) {j : Job}
    (hstored : StoredAs nodes cfg h j) : StoredAs nodes cfg (newer ++ h) j := by
  obtain ⟨t, ht, hrest⟩ := hstored
  refine ⟨t, ?_, hrest⟩
  rw [calls, List.filterMap_append]
  exact List.mem_append_right _ ht

/-- Servers run what was enqueued. -/
theorem stored_of_execution (hrun : (machine nodes cfg).Run (Works nodes cfg quote) h s)
    {e : Execution} (he : (s.worker i).executions[k]? = some e) : StoredAs nodes cfg h e.job := by
  have hmem : e.job ∈ Server.claimedJobs (past nodes cfg i h) := by
    rw [Server.claimedJobs_of_run (run_worker hrun i)]
    exact List.mem_map_of_mem (List.mem_of_getElem? he)
  obtain ⟨u, hu, hclaims⟩ := List.mem_filterMap.1 hmem
  obtain ⟨t, ht, a, now, fate, hinput, rfl⟩ := mem_past (List.mem_reverse.1 hu)
  obtain ⟨newer, older, rfl⟩ := List.append_of_mem ht
  obtain ⟨hbefore, hok⟩ := hrun.of_append
  rw [hinput] at hok
  have htaken : taken nodes cfg t.before i a now fate = .fetch (.dequeue (.job e.job)) := by
    rw [Server.claims] at hclaims
    split at hclaims
    · next j hj =>
      obtain rfl := Option.some.inj hclaims
      exact hj
    · cases hclaims
  obtain ⟨queues, -, -, hclaim⟩ := claimed_of_taken hok.2.2.1 htaken
  obtain ⟨t', ht', j', hstored⟩ :=
    Redis.stored_of_claimed (fresh_calls hbefore) rfl hclaim
  have hold : StoredAs nodes cfg older e.job := ⟨t', ht', j', hstored⟩
  rw [List.append_cons]
  exact hold.mono (newer ++ [t])

/-- How a handler ended that is over. -/
theorem handled_of_returned (hrun : (machine nodes cfg).Run (Works nodes cfg quote) h s)
    {e : Execution} {err : Option HandlerError} (he : (s.worker i).executions[k]? = some e)
    (hst : e.stage = .returned err) : ∃ t ∈ h, ∃ now fate o ends e',
      t.input = .act i (.own (.job k (.handle o))) now fate ∧
      (t.before.worker i).executions[k]? = some e' ∧ e'.job = e.job ∧
      o = (nodes i).mux.processTask quote ends e.job ∧ err = invoke o := by
  have hworker := run_worker hrun i
  have hsettled := Server.settled_of_run hworker k
  rw [he] at hsettled
  obtain ⟨o, ⟨u, hu, hhandle⟩, herr⟩ := Server.Accounts.handled hsettled err hst
  obtain ⟨t, ht, a, now, fate, hinput, rfl⟩ := mem_past hu
  obtain ⟨older, -, hok⟩ := hrun.of_mem ht
  rw [hinput] at hok
  have hown : a = .own (.job k (.handle o)) := by
    cases a with
    | own b => exact congrArg Act.own hhandle
    | poll queues => cases hhandle
    | report k' wall => cases hhandle
    | renew => cases hhandle
  subst hown
  obtain ⟨e', ends, he', ho⟩ := hok.2.2.2 k o rfl
  have hjob := Server.job_of_mem hworker hu he' he
  exact ⟨t, ht, now, fate, o, ends, e', hinput, he', hjob, hjob ▸ ho, herr⟩

/-! ### Outcomes -/

variable (nodes) in
/-- At the turn a handler ended like this: it is registered at a server for the type of job `j`, and
the server runs the job. -/
def HandlerEnds (t : Turn (System ι) (Move ι)) (j : Job) (o : Outcome) : Prop :=
  ∃ i k e now fate f, t.input = .act i (.own (.job k (.handle o))) now fate ∧
    (t.before.worker i).executions[k]? = some e ∧ e.job = j ∧
    (nodes i).mux.handlers.lookup j.type = some f

/-- **From a report to the handler.** What is reported on a job is how `ProcessTask` ended on it, at
a server that has a handler for its type or else with the error that says so. -/
theorem handled_of_reports (hrun : (machine nodes cfg).Run (Works nodes cfg quote) h s)
    (hok : Works nodes cfg quote h s m) {c : Call} {w : String}
    (hc : callOf nodes s m = some c) (hrep : Redis.Reports c w id) :
    ∃ i wall j o, c.op = reportOp (Server.report (nodes i).config wall j (invoke o)) ∧ j.id = id ∧
      StoredAs nodes cfg h j ∧
      ((nodes i).mux.handlers.lookup j.type = none ∧
          o = .failed (Mux.noHandler quote j.type) false ∨
        ∃ t ∈ h, HandlerEnds nodes t j o) := by
  obtain ⟨i, k, wall, -, e, err, -, he, hst, hop, hid⟩ := report_of_reports hok hc hrep
  obtain ⟨t, ht, now, fate, o, ends, e', hinput, he', hjob, ho, rfl⟩ :=
    handled_of_returned hrun he hst
  refine ⟨i, wall, e.job, o, hop, hid, stored_of_execution hrun he, ?_⟩
  rcases hlook : (nodes i).mux.handlers.lookup e.job.type with - | f
  · exact .inl ⟨rfl, ho.trans (Mux.processTask_of_none hlook)⟩
  · exact .inr ⟨t, ht, i, k, e', now, fate, f, hinput, he', hjob, hlook⟩

/-- Every report of a run, and what it says. -/
theorem handled_of_mem (hrun : (machine nodes cfg).Run (Works nodes cfg quote) h s)
    {u : Turn Store Call} (hu : u ∈ calls nodes h) {w : String}
    (hrep : Redis.Reports u.input w id) :
    ∃ i wall j o, u.input.op = reportOp (Server.report (nodes i).config wall j (invoke o)) ∧
      j.id = id ∧ StoredAs nodes cfg h j ∧
      ((nodes i).mux.handlers.lookup j.type = none ∧
          o = .failed (Mux.noHandler quote j.type) false ∨
        ∃ t ∈ h, HandlerEnds nodes t j o) := by
  obtain ⟨newer, t, older, rfl, hc, -⟩ := mem_calls hu
  obtain ⟨hbefore, hok⟩ := hrun.of_append
  obtain ⟨i, wall, j, o, hop, hid, hstored, hcause⟩ := handled_of_reports hbefore hok hc hrep
  refine ⟨i, wall, j, o, hop, hid, ?_, hcause.imp_right fun hends ↦ ?_⟩
  · rw [List.append_cons]
    exact hstored.mono (newer ++ [t])
  · obtain ⟨t', ht', hends⟩ := hends
    exact ⟨t', List.mem_append_right _ (List.mem_cons_of_mem _ ht'), hends⟩

theorem outcome_of_ack {sc : Server.Config} {wall : Time} {j : Job} {o : Outcome} {w : String}
    (hop : reportOp (Server.report sc wall j (invoke o)) = .ack w id) : o = .succeeded := by
  rcases o with - | ⟨text, skip⟩ | value
  · rfl
  · rcases skip with - | - <;> cases hop
  · cases hop

theorem outcome_of_kill {sc : Server.Config} {wall : Time} {j : Job} {o : Outcome}
    {w reason : String} (hop : reportOp (Server.report sc wall j (invoke o)) = .kill w id reason) :
    o = .failed reason true := by
  rcases o with - | ⟨text, skip⟩ | value
  · cases hop
  · rcases skip with - | - <;> cases hop
    rfl
  · cases hop

/-- **Jobs end by their handlers.** A job that was acked is one for which a handler returned nil. A
job in the dead-letter set is one for which a handler returned an error that wraps `ErrSkipRetry`,
or it was claimed as often as it may be. The handler is one that the server has for the type that
the job was enqueued with. -/
theorem settled_by_handlers (hrun : (machine nodes cfg).Run (Works nodes cfg quote) h s) :
    (Redis.Acked cfg (calls nodes h) id → ∃ j, j.id = id ∧ StoredAs nodes cfg h j ∧
      ∃ t ∈ h, HandlerEnds nodes t j .succeeded) ∧
    ((s.store.dead.lookup id).isSome → (∃ j text, j.id = id ∧ StoredAs nodes cfg h j ∧
        ∃ t ∈ h, HandlerEnds nodes t j (.failed text true)) ∨
      ∃ t ∈ calls nodes h, ∃ j, Redis.reply cfg t = .stored j ∧ j.id = id ∧
        Redis.spent (Redis.claims cfg (calls nodes h) id) j.maxAttempts = true) := by
  constructor
  · rintro ⟨u, hu, w, hop, -⟩
    obtain ⟨i, wall, j, o, hsent, hid, hstored, hcause⟩ := handled_of_mem hrun hu (.inl hop)
    obtain rfl := outcome_of_ack (hsent.symm.trans hop)
    rcases hcause with ⟨-, ⟨⟩⟩ | hends
    exact ⟨j, hid, hstored, hends⟩
  · intro hdead
    rcases Redis.killed_or_spent (fresh_calls hrun) hdead with
      ⟨u, hu, w, reason, hop, -⟩ | hspent
    · obtain ⟨i, wall, j, o, hsent, hid, hstored, hcause⟩ :=
        handled_of_mem hrun hu (.inr (.inr ⟨reason, hop⟩))
      obtain rfl := outcome_of_kill (hsent.symm.trans hop)
      rcases hcause with ⟨-, ⟨⟩⟩ | hends
      exact .inl ⟨j, reason, hid, hstored, hends⟩
    · exact .inr hspent

/-- A server runs a job to its end, and its handler ends like this. -/
def served (taskType : String) (o : Outcome) : List (Move Bool) :=
  [.call ⟨0, .enqueue "job" 0 (some (.plain "q" taskType 1))⟩,
    .act false (.own (.fetch .acquire)) 0 .answered, .act false (.poll ["q"]) 0 .answered,
    .act false (.own (.fetch .launch)) 0 .answered, .act false (.own (.job 0 .track)) 0 .answered,
    .act false (.own (.job 0 (.handle o))) 0 .answered, .act false (.report 0 0) 0 .answered]

theorem run_succeeded : (machine twoServers .default).Run (Works twoServers .default String.quote)
    (played (served "t" .succeeded)).1 (played (served "t" .succeeded)).2 := by
  refine .play (served "t" .succeeded) .start ⟨⟨⟨⟨?_, ?_⟩, ?_⟩, rfl⟩, ⟨?_, ?_, ?_, ?_⟩,
    ⟨?_, ?_, ?_, ?_⟩, ⟨?_, ?_, ?_, ?_⟩, ⟨?_, ?_, ?_, ?_⟩, ⟨?_, ?_, ?_, ?handler⟩,
    ⟨?_, ?_, ?_, ?_⟩, trivial⟩
  case handler =>
    rintro k o ⟨⟩
    exact ⟨_, fun _ _ ↦ .succeeded, rfl, rfl⟩
  all_goals first | decide +kernel | simp [isLocal, calls]

theorem settled_by_handlers_succeeded :
    Redis.Acked .default (calls twoServers (played (served "t" .succeeded)).1) "job" ∧
    ∃ j, j.id = "job" ∧ StoredAs twoServers .default (played (served "t" .succeeded)).1 j ∧
      ∃ t ∈ (played (served "t" .succeeded)).1, HandlerEnds twoServers t j .succeeded := by
  have hacked : Redis.Acked .default (calls twoServers (played (served "t" .succeeded)).1) "job" :=
    ⟨_, List.mem_cons_self, "a", rfl, rfl⟩
  exact ⟨hacked, (settled_by_handlers run_succeeded).1 hacked⟩

variable (nodes cfg) in
/-- No server has a handler for the type that the job was enqueued with. -/
def Unhandled (h : List (Turn (System ι) (Move ι))) (id : String) : Prop :=
  ∀ t ∈ calls nodes h, ∀ j, Redis.reply cfg t = .stored j → j.id = id →
    ∀ i, (nodes i).mux.handlers.lookup j.type = none

/-- **A job that nobody handles is tried to the end.** Every report on it is a `Nack` that names its
type, so it is never acked and never killed, and if it is in the dead-letter set then it was claimed
as often as it may be. -/
theorem unhandled_exhausted (hrun : (machine nodes cfg).Run (Works nodes cfg quote) h s)
    (hnone : Unhandled nodes cfg h id) :
    (∀ u ∈ calls nodes h, ∀ w, Redis.Reports u.input w id → ∃ retryAt j, j.id = id ∧
      StoredAs nodes cfg h j ∧
      u.input.op = .nack w id retryAt (Mux.noHandler quote j.type)) ∧
    ¬ Redis.Acked cfg (calls nodes h) id ∧
    ((s.store.dead.lookup id).isSome → ∃ t ∈ calls nodes h, ∃ j, Redis.reply cfg t = .stored j ∧
      j.id = id ∧ Redis.spent (Redis.claims cfg (calls nodes h) id) j.maxAttempts = true) := by
  have hnacks : ∀ u ∈ calls nodes h, ∀ w, Redis.Reports u.input w id → ∃ retryAt j, j.id = id ∧
      StoredAs nodes cfg h j ∧ u.input.op = .nack w id retryAt (Mux.noHandler quote j.type) := by
    intro u hu w hrep
    obtain ⟨i, wall, j, o, hsent, hid, hstored, hcause⟩ := handled_of_mem hrun hu hrep
    rcases hcause with ⟨-, rfl⟩ | ⟨t, -, i', -, -, -, -, f, -, -, -, hlook⟩
    · refine ⟨wall + (nodes i).config.backoff j.attempt, j, hid, hstored, ?_⟩
      change u.input.op = .nack _ j.id _ _ at hsent
      rw [hsent, hid]
      congr 1
      rcases hrep with hop | ⟨_, _, hop⟩ | ⟨_, hop⟩ <;> cases hsent.symm.trans hop
      rfl
    · obtain ⟨t', ht', j', hreply, hid', htype, -⟩ := hstored
      rw [← htype, hnone t' ht' j' hreply (hid'.trans hid) i'] at hlook
      cases hlook
  refine ⟨hnacks, ?_, fun hdead ↦ ?_⟩
  · rintro ⟨u, hu, w, hop, -⟩
    obtain ⟨_, _, -, -, hnack⟩ := hnacks u hu w (.inl hop)
    cases hop.symm.trans hnack
  · refine (Redis.killed_or_spent (fresh_calls hrun) hdead).resolve_left ?_
    rintro ⟨u, hu, w, reason, hop, -⟩
    obtain ⟨_, _, -, -, hnack⟩ := hnacks u hu w (.inr (.inr ⟨reason, hop⟩))
    cases hop.symm.trans hnack

/-- How a job of a type without a handler ends. -/
def refused : Outcome := .failed (Mux.noHandler String.quote "other") false

theorem run_refused : (machine twoServers .default).Run (Works twoServers .default String.quote)
    (played (served "other" refused)).1 (played (served "other" refused)).2 := by
  refine .play (served "other" refused) .start ⟨⟨⟨⟨?_, ?_⟩, ?_⟩, rfl⟩, ⟨?_, ?_, ?_, ?_⟩,
    ⟨?_, ?_, ?_, ?_⟩, ⟨?_, ?_, ?_, ?_⟩, ⟨?_, ?_, ?_, ?_⟩, ⟨?_, ?_, ?_, ?handler⟩,
    ⟨?_, ?_, ?_, ?_⟩, trivial⟩
  case handler =>
    rintro k o ⟨⟩
    exact ⟨_, fun _ _ ↦ .succeeded, rfl, rfl⟩
  all_goals first | decide +kernel | simp [isLocal, calls]

theorem unhandled_exhausted_refused :
    ((played (served "other" refused)).2.store.dead.lookup "job").isSome ∧
    ∃ t ∈ calls twoServers (played (served "other" refused)).1, ∃ j,
      Redis.reply .default t = .stored j ∧ j.id = "job" ∧
      Redis.spent (Redis.claims .default (calls twoServers (played (served "other" refused)).1)
        "job") j.maxAttempts = true := by
  have hdead : ((played (served "other" refused)).2.store.dead.lookup "job").isSome := rfl
  have hnone : Unhandled twoServers .default (played (served "other" refused)).1 "job" := by
    intro t ht j hstored hid i
    have hcalls : calls twoServers (played (served "other" refused)).1 = [_, _, _] := rfl
    rw [hcalls] at ht
    rcases ht with - | ⟨-, - | ⟨-, - | ⟨-, ⟨⟩⟩⟩⟩
    · cases hstored
    · cases hstored
    · cases hstored
      rfl
  exact ⟨hdead, (unhandled_exhausted run_refused hnone).2.2 hdead⟩

end TaskQueue.Cluster
