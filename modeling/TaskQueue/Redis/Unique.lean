import TaskQueue.Redis.Steps

/-!
# Who writes unique keys

A unique key is written by one command of one script, and by nothing else: the `SET` of
`enqueue.lua`, under the key of the job that comes in. So an operation that does not enqueue a job
with a given key leaves that key alone (`unique_run`), and one that does either finds it held and
changes nothing, or takes it for as long as the job's window says (`enqueue_keyed`).
-/

namespace TaskQueue.Redis

open Script

variable {s : Store} {now : ℤ} {w q id : String}

namespace Store

theorem unique_place (s : Store) (h : Hash) : (place s h).unique = s.unique := by
  rw [place]
  dsimp only
  split_ifs <;> rfl

theorem unique_popJob {vt : ℤ} (n : ℕ) :
    ∀ s : Store, (popJob now w vt q n s).2.unique = s.unique := by
  induction n with
  | zero => exact fun s ↦ rfl
  | succ n ih =>
    intro s
    rw [popJob]
    rcases s.ready q with _ | ⟨id, rest⟩
    · rfl
    · dsimp only
      rcases s.job id with _ | e
      · exact ih (s.lpop q)
      · rfl

theorem unique_dequeue {vt : ℤ} {qs : List String} :
    ∀ s : Store, (Script.dequeue now w vt qs s).2.unique = s.unique := by
  induction qs with
  | nil => exact fun s ↦ rfl
  | cons q qs ih =>
    intro s
    have hpop : (popJob now w vt q 20 s).2.unique = s.unique := unique_popJob 20 s
    rw [Script.dequeue]
    rcases hres : popJob now w vt q 20 s with ⟨_ | h, s'⟩
    · rw [hres] at hpop
      exact (ih s').trans hpop
    · rw [hres] at hpop
      exact hpop

theorem unique_ack {ttl : ℤ} : (Script.ack s now w id ttl).2.unique = s.unique := by
  rw [Script.ack]
  rcases fence s w id with r | h
  · rfl
  · dsimp only
    split_ifs <;> rfl

theorem unique_nack {r : ℤ} {reason : String} :
    (Script.nack s now w id r reason).2.unique = s.unique := by
  rw [Script.nack]
  rcases fence s w id with r | h
  · rfl
  · dsimp only
    split_ifs <;> rfl

theorem unique_kill {reason : String} : (Script.kill s now w id reason).2.unique = s.unique := by
  rw [Script.kill]
  rcases fence s w id with r | h <;> rfl

theorem unique_extend {d : ℤ} {ids : List String} :
    ∀ s : Store, (Script.extend w d ids s).2.unique = s.unique := by
  induction ids with
  | nil => exact fun s ↦ rfl
  | cons id ids ih =>
    intro s
    rw [Script.extend]
    rcases fence s w id with r | h
    · exact ih s
    · exact ih (renew s id h d)

theorem unique_recover (s : Store) (h : Hash) : (recover s now q id h).unique = s.unique := by
  rw [recover]
  dsimp only
  split_ifs <;> rfl

theorem unique_reapLoop {ids : List String} :
    ∀ (n : ℕ × ℕ) (s : Store), (reapLoop now q ids n s).2.unique = s.unique := by
  induction ids with
  | nil => exact fun n s ↦ rfl
  | cons id ids ih =>
    intro n s
    rw [reapLoop]
    split_ifs
    · dsimp only
      rcases (s.zremActive q id).job id with _ | e
      · exact ih n _
      · exact (ih _ _).trans (unique_recover _ _)
    · exact ih n s

theorem unique_promoteLoop {set : WaitSet} {ids : List String} :
    ∀ (n : ℕ) (s : Store), (promoteLoop set ids n s).2.unique = s.unique := by
  induction ids with
  | nil => exact fun n s ↦ rfl
  | cons id ids ih =>
    intro n s
    rw [promoteLoop]
    split_ifs
    · dsimp only
      rcases (zremWait s set id).job id with _ | e
      · exact (ih n _).trans (zremWait_unique s set id)
      · exact (ih (n + 1) _).trans (zremWait_unique s set id)
    · exact ih n s

theorem unique_promoteSet {limit : ℤ} {set : WaitSet} (r : ℕ × Store) :
    (promoteSet now limit set r).2.unique = r.2.unique := by
  rw [promoteSet]
  split_ifs
  · exact unique_promoteLoop _ _
  · rfl

end Store

open Store

/-- `Enqueue` leaves the keys alone, or it stores the job and the key of the job is taken. -/
theorem enqueue_unique (s : Store) (now : ℤ) (newID : String) (wall : Time) (j : Job) :
    (enqueue s now newID wall (some j)).2.unique = s.unique ∨
    ∃ j' expireAt, (enqueue s now newID wall (some j)).1 = .ok j' ∧
      (enqueue s now newID wall (some j)).2.unique =
        Function.update s.unique j.uniqueKey (some ⟨j'.id, expireAt⟩) := by
  rcases enqueue_outcome s now newID wall j with
    ⟨-, reason, heq⟩ | ⟨-, ⟨u, -, -, heq⟩ | ⟨-, st, heq⟩⟩
  · rw [heq]
    exact .inl rfl
  · rw [heq]
    exact .inl rfl
  · rw [heq, unique_place, takeKey]
    split_ifs
    · exact .inr ⟨_, _, rfl, rfl⟩
    · exact .inl rfl

/-- An enqueued job touches no key but its own. -/
theorem unique_enqueue {newID : String} {wall : Time} {j : Job} {k : String}
    (hk : j.uniqueKey ≠ k) : (enqueue s now newID wall (some j)).2.unique k = s.unique k := by
  rcases enqueue_unique s now newID wall j with hsame | ⟨j', expireAt, -, htaken⟩
  · rw [hsame]
  · rw [htaken]
    exact Function.update_of_ne (Ne.symm hk) _ _

/-- **A unique key is written by nobody but a job that carries it.** -/
theorem unique_run {ttl : Duration} {op : Op} {k : String}
    (hk : ∀ newID wall j, op = .enqueue newID wall (some j) → j.uniqueKey ≠ k) :
    (run ttl s now op).2.unique k = s.unique k := by
  cases op with
  | enqueue newID wall o =>
    rcases o with _ | j
    · rfl
    · exact unique_enqueue (hk newID wall j rfl)
  | dequeue o =>
    show (claimNext s now o).2.unique k = s.unique k
    rcases claimNext_script s now o with ⟨err, heq⟩ | ⟨-, -, heq⟩
    · rw [heq]
    · rw [heq]
      exact congrFun (unique_dequeue s) k
  | ack w i => exact congrFun unique_ack k
  | nack w i r reason => exact congrFun unique_nack k
  | kill w i reason => exact congrFun unique_kill k
  | extend w ids vt =>
    show (extend s now w ids vt).2.unique k = s.unique k
    rw [extend]
    split_ifs
    · rfl
    · rfl
    · exact congrFun (unique_extend s) k
  | reap q limit =>
    show (reapQueue s now q limit).2.unique k = s.unique k
    rw [reapQueue]
    split_ifs
    · rfl
    · rfl
    · exact congrFun (unique_reapLoop _ s) k
  | promote limit =>
    show (promote s now limit).2.unique k = s.unique k
    rw [promote]
    split_ifs
    · rfl
    · rfl
    · exact congrFun ((unique_promoteSet _).trans (unique_promoteSet _)) k
  | scheduleCronIfAbsent i t =>
    show (scheduleCronIfAbsent s i t).2.unique k = s.unique k
    obtain ⟨cron, heq⟩ := scheduleCronIfAbsent_cron s i t
    rw [heq]
  | dueCron limit => rfl
  | claimCron i t t' =>
    show (claimCron s i t t').2.unique k = s.unique k
    obtain ⟨cron, heq⟩ := claimCron_cron s i t t'
    rw [heq]
  | removeCron i => rfl

/-- **A job with a unique key** finds the key held and is refused, or takes it for its window. -/
theorem enqueue_keyed (s : Store) (now : ℤ) (newID : String) (wall : Time) {j : Job}
    (hqueue : j.queue ≠ "") (htype : j.type ≠ "") (hkey : j.uniqueKey ≠ "")
    (hpos : 0 < milliseconds j.uniqueWindow) :
    (∃ u, s.unique j.uniqueKey = some u ∧
      enqueue s now newID wall (some j) = (.error (.duplicate j.uniqueKey u.value), s)) ∨
    s.unique j.uniqueKey = none ∧ ∃ j' s', enqueue s now newID wall (some j) = (.ok j', s') ∧
      (∃ e, s'.job j'.id = some e ∧ e.hash.uniqueKey = j.uniqueKey) ∧
      s'.unique = Function.update s.unique j.uniqueKey
        (some ⟨j'.id, now + milliseconds j.uniqueWindow⟩) := by
  have hms : uniqueTTL (j.assigned newID) = milliseconds j.uniqueWindow := if_neg hkey
  rcases enqueue_outcome s now newID wall j with
    ⟨hinvalid, -⟩ | ⟨-, ⟨u, -, hu, heq⟩ | ⟨hfree, st, heq⟩⟩
  · exact absurd hinvalid (not_or.2 ⟨hqueue, htype⟩)
  · exact .inl ⟨u, hu, heq⟩
  · rw [hms] at hfree
    refine .inr ⟨hfree hpos, _, _, heq, ⟨_, job_place _ _, rfl⟩, ?_⟩
    rw [unique_place, takeKey, hms, if_pos hpos]
    rfl

/-! ### Who holds a key -/

/-- An `Enqueue` is refused as a duplicate of the job that holds its key. -/
theorem holder_of_duplicate {ttl : Duration} {newID : String} {wall : Time} {j : Job}
    {k jobID : String}
    (hreply : (run ttl s now (.enqueue newID wall (some j))).1 = .failed (.duplicate k jobID)) :
    ∃ u, s.unique j.uniqueKey = some u ∧ u.value = jobID := by
  simp only [run, Prod.map_fst] at hreply
  rcases enqueue_outcome s now newID wall j with
    ⟨-, reason, heq⟩ | ⟨-, ⟨u, -, hu, heq⟩ | ⟨-, st, heq⟩⟩
  · rw [heq] at hreply
    cases hreply
  · rw [heq] at hreply
    cases hreply
    exact ⟨u, hu, rfl⟩
  · rw [heq] at hreply
    cases hreply

variable {cfg : Config} {c : Call} {t : Turn Store Call} {h : List (Turn Store Call)} {k : String}

/-- The turn was an `Enqueue` of the job `j` that stored it under `jobID`. -/
def Submits (cfg : Config) (t : Turn Store Call) (j : Job) (jobID : String) : Prop :=
  ∃ newID wall j', t.input.op = .enqueue newID wall (some j) ∧ reply cfg t = .stored j' ∧
    j'.id = jobID

/-- A call leaves a key as it finds it, or it stores a job that holds the key from then on. -/
theorem unique_exec (cfg : Config) (s : Store) (c : Call) (k : String) :
    (exec cfg s c).2.unique k = (seen cfg s c).unique k ∨
    ∃ u j, (exec cfg s c).2.unique k = some u ∧ Submits cfg ⟨s, c⟩ j u.value ∧
      j.uniqueKey = k := by
  by_cases henq : ∃ newID wall j, c.op = .enqueue newID wall (some j) ∧ j.uniqueKey = k
  · obtain ⟨newID, wall, j, hop, rfl⟩ := henq
    have hexec : exec cfg s c =
        (enqueue (seen cfg s c) c.now newID wall (some j)).map (.of .stored) id := by
      rw [exec, hop]
      rfl
    rcases enqueue_unique (seen cfg s c) c.now newID wall j with
      hsame | ⟨j', expireAt, hok, htaken⟩
    · rw [hexec]
      exact .inl (congrFun hsame _)
    · have hreply : reply cfg ⟨s, c⟩ = .stored j' := by
        rw [reply, hexec, Prod.map_fst, hok]
        rfl
      have hholds : (exec cfg s c).2.unique j.uniqueKey = some ⟨j'.id, expireAt⟩ := by
        rw [hexec, Prod.map_snd]
        exact (congrFun htaken _).trans (Function.update_self _ _ _)
      exact .inr ⟨_, j, hholds, ⟨newID, wall, j', hop, hreply, rfl⟩, rfl⟩
  · exact .inl (unique_run fun newID wall j hop hkey ↦ henq ⟨newID, wall, j, hop, hkey⟩)

/-- **Who holds a key was stored under it**, by a call of the run that submitted a job with this
key. -/
theorem holder_of_run {ok : List (Turn Store Call) → Store → Call → Prop}
    (hrun : (machine cfg).Run ok h s) {u : UniqueKey} (hu : s.unique k = some u) :
    ∃ t ∈ h, ∃ j, Submits cfg t j u.value ∧ j.uniqueKey = k := by
  induction hrun generalizing u with
  | start => cases hu
  | @step h s c hrun _ ih =>
    rcases unique_exec cfg s c k with hsame | ⟨u', j, htaken, hsubmits, hkey⟩
    · have hbefore : s.unique k = some u :=
        (Option.filter_eq_some_iff.1 (hsame.symm.trans hu)).1
      obtain ⟨t, ht, hturn⟩ := ih hbefore
      exact ⟨t, List.mem_cons_of_mem _ ht, hturn⟩
    · obtain rfl := Option.some.inj (htaken.symm.trans hu)
      exact ⟨⟨s, c⟩, List.mem_cons_self, j, hsubmits, hkey⟩

/-- **A duplicate has an original**: an `Enqueue` that is refused as a duplicate of a job finds that
job's call in the run, with the same unique key. -/
theorem original_of_run {ok : List (Turn Store Call) → Store → Call → Prop}
    (hrun : (machine cfg).Run ok h s) {newID : String} {wall : Time} {j : Job} {jobID : String}
    (hop : c.op = .enqueue newID wall (some j))
    (hreply : (exec cfg s c).1 = .failed (.duplicate k jobID)) :
    ∃ t ∈ h, ∃ j', Submits cfg t j' jobID ∧ j'.uniqueKey = j.uniqueKey := by
  rw [exec, hop] at hreply
  obtain ⟨u, hu, rfl⟩ := holder_of_duplicate hreply
  exact holder_of_run hrun (Option.filter_eq_some_iff.1 hu).1

end TaskQueue.Redis
