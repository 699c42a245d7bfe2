import TaskQueue.Redis.Location

/-!
# Poison pills terminate

Attempts are spent at the claim, so a job that crashes every worker it meets runs out of them. Over
whole runs: the `attempt` field is the number of claims, `recoveries` the number of leases that
ended by expiry, a job that waits has an attempt left, and **no job is claimed more often than its
budget says**, whatever mixture of failures and crashes ends its claims.

The test for a spent budget is written twice, in `nack.lua` and in `reap.lua`, and both convert the
two counters with `tonumber`. A double cannot tell every integer above `2 ^ 53` from its neighbours,
so a job with such a budget can be declared dead with attempts left: `early_death` finds a run for
every budget `m` that rounds to the same double as `m - 1`. Where it does not, death means that the
job was killed or that its budget is used up exactly (`poison_pills_terminate`).
-/

namespace TaskQueue.Redis

open Keyed Script Store Life

/-! ### The test for a spent budget -/

theorem luaNumber_mono {a b : ℤ} (hab : a ≤ b) : luaNumber a ≤ luaNumber b := Double.ofInt_mono hab

theorem spent_sound : Sound spent := fun _ _ hle ↦ decide_eq_true (luaNumber_mono hle)

/-- The budget and the attempt before it are different numbers in Lua. -/
def Distinguished (m : ℤ) : Prop := luaNumber (m - 1) < luaNumber m

/-- Budgets up to `2 ^ 53` are distinguished. -/
theorem distinguished_of_le {m : ℤ} (hpos : 0 < m) (hle : m ≤ 2 ^ 53) : Distinguished m := by
  rw [Distinguished, luaNumber, luaNumber, Double.ofInt_of_le (by omega) (by omega),
    Double.ofInt_of_le (by omega) hle]
  omega

/-- A distinguished budget is spent only when it is used up. -/
theorem le_of_spent {a m : ℤ} (hm : Distinguished m) (hspent : spent a m = true) : m ≤ a := by
  by_contra hlt
  have hle := of_decide_eq_true hspent
  have hbefore : luaNumber a ≤ luaNumber (m - 1) := luaNumber_mono (by omega)
  rw [Distinguished] at hm
  omega

/-- A budget that is spent is used up, or more attempts than Lua can count are. -/
theorem min_le_of_spent {a m : ℤ} (hpos : 0 < m) (hspent : spent a m = true) :
    min m (2 ^ 53) ≤ a := by
  refine le_of_spent (distinguished_of_le (by omega) (min_le_right _ _)) (decide_eq_true ?_)
  exact (luaNumber_mono (min_le_left _ _)).trans (of_decide_eq_true hspent)

/-! ### Claims and recoveries of a run -/

section Runs

variable (cfg : Config)

/-- The job the turn claimed, if it was a `Dequeue` that claimed one. -/
def claimOf (t : Turn Store Call) : Option String :=
  match t.input.op with
  | .dequeue o =>
    match (claimNext (seen cfg t.before t.input) t.input.now o).1 with
    | .ok h => some h.id
    | .error _ => none
  | _ => none

/-- The jobs whose leases the turn ended, if it was a `Reap`. -/
def reapsOf (t : Turn Store Call) : List String :=
  match t.input.op with
  | .reap q limit => reaped (seen cfg t.before t.input) t.input.now q limit
  | _ => []

/-- How often the job was claimed. -/
def claims (h : List (Turn Store Call)) (id : String) : ℕ :=
  h.countP fun t ↦ claimOf cfg t = some id

/-- How often a lease on the job ended by expiry. -/
def reaps (h : List (Turn Store Call)) (id : String) : ℕ := h.countP fun t ↦ id ∈ reapsOf cfg t

/-- A `Kill` of this ID succeeded. -/
def Killed (h : List (Turn Store Call)) (id : String) : Prop :=
  ∃ t ∈ h, ∃ w reason, t.input.op = .kill w id reason ∧ reply cfg t = .done

variable {cfg} {h : List (Turn Store Call)} {s : Store} {id : String}

theorem count_reaped (s : Store) (now : ℤ) (q : String) (limit : ℤ) (id : String) :
    (reaped s now q limit).count id = if id ∈ reaped s now q limit then 1 else 0 := by
  have hnodup : (reaped s now q limit).Nodup := by
    rw [reaped]
    split_ifs
    · exact List.nodup_nil
    · exact List.nodup_nil
    · exact dueMembers_nodup _ _ _
  split_ifs with hmem
  · exact List.count_eq_one_of_mem hnodup hmem
  · exact List.count_eq_zero_of_not_mem hmem

/-- What one turn adds to the claims of a job. -/
theorem countP_isClaim_events (t : Turn Store Call) (id : String) :
    (eventsAt id (events cfg t.before t.input)).countP Event.isClaim =
      if claimOf cfg t = some id then 1 else 0 := by
  by_cases hop : ∃ o, t.input.op = .dequeue o
  · obtain ⟨o, hop⟩ := hop
    rcases hres : (claimNext (seen cfg t.before t.input) t.input.now o).1 with err | h
    · have hclaim : claimOf cfg t = none := by simp only [claimOf, hop, hres]
      have hevents : events cfg t.before t.input = [] := by simp only [events, eventsOf, hop, hres]
      rw [hclaim, hevents]
      rfl
    · have hclaim : claimOf cfg t = some h.id := by simp only [claimOf, hop, hres]
      have hevents : events cfg t.before t.input = [(h.id, .claimed h.owner h.deadline)] := by
        simp only [events, eventsOf, hop, hres]
      rw [hclaim, hevents]
      by_cases hid : h.id = id
      · rw [hid, eventsAt_cons_self, if_pos rfl]
        rfl
      · rw [eventsAt_cons_of_ne hid, if_neg fun heq ↦ hid (Option.some.inj heq)]
        rfl
  · have hclaim : claimOf cfg t = none := by
      rw [claimOf]
      split
      · next o heq => exact absurd ⟨o, heq⟩ hop
      · rfl
    rw [hclaim, if_neg (by simp), List.countP_eq_zero]
    intro e he hisClaim
    cases e with
    | claimed w d =>
      obtain ⟨o, -, heq, -⟩ := mem_events_iff.1 (mem_eventsAt.1 he)
      exact hop ⟨o, heq⟩
    | _ => cases hisClaim

/-- What one turn adds to the recoveries of a job. -/
theorem countP_isReap_events (t : Turn Store Call) (id : String) :
    (eventsAt id (events cfg t.before t.input)).countP Event.isReap =
      if id ∈ reapsOf cfg t then 1 else 0 := by
  by_cases hop : ∃ q limit, t.input.op = .reap q limit
  · obtain ⟨q, limit, hop⟩ := hop
    have hreaps : reapsOf cfg t = reaped (seen cfg t.before t.input) t.input.now q limit := by
      simp only [reapsOf, hop]
    have hevents : events cfg t.before t.input =
        (reapsOf cfg t).map fun i ↦ (i, .reaped t.input.now) := by
      simp only [events, eventsOf, hop, hreaps]
    rw [hevents, eventsAt_map_const, List.countP_replicate, hreaps, count_reaped]
    rfl
  · have hreaps : reapsOf cfg t = [] := by
      rw [reapsOf]
      split
      · next q limit heq => exact absurd ⟨q, limit, heq⟩ hop
      · rfl
    rw [hreaps, if_neg List.not_mem_nil, List.countP_eq_zero]
    intro e he hisReap
    cases e with
    | reaped now =>
      obtain ⟨q, limit, heq, -⟩ := mem_events_iff.1 (mem_eventsAt.1 he)
      exact hop ⟨q, limit, heq⟩
    | _ => cases hisReap

/-- The claims in a job's history are those of the run, and so are its recoveries. -/
theorem countP_history (cfg : Config) (h : List (Turn Store Call)) (id : String) :
    (eventsAt id (history (events cfg) h)).countP Event.isClaim = claims cfg h id ∧
      (eventsAt id (history (events cfg) h)).countP Event.isReap = reaps cfg h id := by
  refine ⟨countP_eventsAt_history fun t _ ↦ ?_, countP_eventsAt_history fun t _ ↦ ?_⟩
  · simpa using countP_isClaim_events t id
  · simpa using countP_isReap_events t id

theorem maxAttempts_pos_of_stored {t : Turn Store Call} {newID : String} {wall : Time}
    {o : Option Job} {j : Job} (hop : t.input.op = .enqueue newID wall o)
    (hreply : reply cfg t = .stored j) : 0 < j.maxAttempts := by
  rw [reply, exec, hop] at hreply
  obtain ⟨j₀, st, -, rfl, rfl, -⟩ := stored_of_run hreply
  simp only [Job.assigned, defaultMaxAttempts]
  split_ifs <;> omega

/-- **The budget of every job of a run**, kept or already gone. -/
theorem tally_of_follows {a : String → Option Life} {l : Life}
    (hfollows : Follows (advance spent) (fun _ ↦ none) (history (events cfg) h) a)
    (hl : a id = some l) :
    ∃ t ∈ h, ∃ newID wall o j, t.input.op = .enqueue newID wall o ∧ reply cfg t = .stored j ∧
      j.id = id ∧ l.maxAttempts = j.maxAttempts ∧
      ∃ evs, eventsAt id (history (events cfg) h) =
          .enqueued (newLife (jobHash t.input.now j)) :: evs ∧
        (∀ l', .enqueued l' ∉ evs) ∧ Tally spent evs l := by
  have hid := hfollows id
  rw [hl] at hid
  obtain ⟨l₀, evs, hevs, hnew, hrest, honce⟩ := enqueued_first hid
  have hmem : (id, .enqueued l₀) ∈ history (events cfg) h :=
    mem_eventsAt.1 (by rw [hevs]; exact List.mem_cons_self)
  obtain ⟨t, ht, hdid⟩ := mem_history.1 hmem
  obtain ⟨newID, wall, o, j, hop, hreply, rfl, rfl⟩ := mem_events_iff.1 hdid
  have hpos : 0 < j.maxAttempts := maxAttempts_pos_of_stored hop hreply
  have hreset : ∀ e ∈ evs, e.isReset = false := by
    intro e he
    cases e with
    | enqueued l' => exact absurd he (honce l')
    | replayed =>
      have hmem : (j.id, .replayed) ∈ history (events cfg) h :=
        mem_eventsAt.1 (by rw [hevs]; exact List.mem_cons_of_mem _ he)
      obtain ⟨t', -, hdid'⟩ := mem_history.1 hmem
      exact (mem_events_iff.1 hdid').elim
    | _ => rfl
  obtain ⟨hmax, htally⟩ := tally_of_history spent_sound hnew rfl rfl hpos hreset hrest
  exact ⟨t, ht, newID, wall, o, j, hop, hreply, rfl, hmax, evs, hevs, honce, htally⟩

/-- The tally counts what happened in the run. -/
theorem counts_of_tally {l l₀ : Life} {evs : List Event}
    (hevs : eventsAt id (history (events cfg) h) = .enqueued l₀ :: evs) (ht : Tally spent evs l) :
    l.attempt = claims cfg h id ∧ l.recoveries = reaps cfg h id := by
  obtain ⟨hclaims, hreaps⟩ := countP_history cfg h id
  rw [hevs, List.countP_cons] at hclaims hreaps
  rw [ht.attempt_eq, ht.recoveries_eq, ← hclaims, ← hreaps]
  exact ⟨rfl, rfl⟩

/-- The attempt field of a stored job counts its claims. -/
theorem attempt_eq_claims (hrun : (machine cfg).Run (Admissible cfg) h s) {e : Entry}
    (he : s.job id = some e) : e.hash.attempt = claims cfg h id := by
  obtain ⟨-, a, hfollows, hshown⟩ := lives_of_run hrun
  have hl := (life_eq_some he ▸ hshown id).eq_of_some
  obtain ⟨_, -, _, _, _, _, -, -, -, -, evs, hevs, -, htally⟩ := tally_of_follows hfollows hl
  exact (counts_of_tally hevs htally).1

variable (cfg) in
/-- An `Enqueue` stored the job. -/
def Accepted (h : List (Turn Store Call)) (j : Job) : Prop :=
  ∃ t ∈ h, ∃ newID wall o, t.input.op = .enqueue newID wall o ∧ reply cfg t = .stored j

theorem Accepted.maxAttempts_pos {j : Job} (hj : Accepted cfg h j) : 0 < j.maxAttempts := by
  obtain ⟨t, -, newID, wall, o, hop, hreply⟩ := hj
  exact maxAttempts_pos_of_stored hop hreply

/-- A stored job was accepted, with the budget it has. -/
theorem accepted_of_job (hrun : (machine cfg).Run (Admissible cfg) h s) {e : Entry}
    (he : s.job id = some e) :
    ∃ j, Accepted cfg h j ∧ j.id = id ∧ e.hash.maxAttempts = j.maxAttempts := by
  obtain ⟨-, a, hfollows, hshown⟩ := lives_of_run hrun
  have hl := (life_eq_some he ▸ hshown id).eq_of_some
  obtain ⟨t, ht, newID, wall, o, j, hop, hreply, hid, hmax, -⟩ := tally_of_follows hfollows hl
  exact ⟨j, ⟨t, ht, newID, wall, o, hop, hreply⟩, hid, hmax⟩

theorem tally_of_accepted {a : String → Option Life} {j : Job}
    (hfollows : Follows (advance spent) (fun _ ↦ none) (history (events cfg) h) a)
    (hj : Accepted cfg h j) :
    ∃ l, a j.id = some l ∧ l.maxAttempts = j.maxAttempts ∧ l.attempt = claims cfg h j.id ∧
      l.attempt ≤ l.maxAttempts := by
  obtain ⟨t, ht, newID, wall, o, hop, hreply⟩ := hj
  have hmem : .enqueued (newLife (jobHash t.input.now j)) ∈
      eventsAt j.id (history (events cfg) h) := by
    refine mem_eventsAt.2 (mem_history.2 ⟨t, ht, mem_events_iff.2 ?_⟩)
    exact ⟨newID, wall, o, j, hop, hreply, rfl, rfl⟩
  obtain ⟨l, hl⟩ := Option.ne_none_iff_exists'.1 (ne_none_of_mem (hfollows j.id) hmem)
  obtain ⟨_, -, _, _, _, j', -, -, -, hmax, evs, hevs, honce, htally⟩ :=
    tally_of_follows hfollows hl
  rw [hevs] at hmem
  rcases List.mem_cons.1 hmem with heq | hagain
  · have hsame : j.maxAttempts = j'.maxAttempts :=
      congrArg Life.maxAttempts (Event.enqueued.inj heq)
    exact ⟨l, hl, hmax.trans hsame.symm, (counts_of_tally hevs htally).1, htally.attempt_le⟩
  · exact absurd hagain (honce _)

/-- **A job is claimed at most as often as its budget says.** -/
theorem claims_le_of_accepted (hrun : (machine cfg).Run (Admissible cfg) h s) {j : Job}
    (hj : Accepted cfg h j) : (claims cfg h j.id : ℤ) ≤ j.maxAttempts := by
  obtain ⟨-, a, hfollows, -⟩ := lives_of_run hrun
  obtain ⟨l, -, hmax, hatt, hle⟩ := tally_of_accepted hfollows hj
  rwa [hatt, hmax] at hle

theorem maxAttempts_of_accepted (hrun : (machine cfg).Run (Admissible cfg) h s) {j : Job}
    (hj : Accepted cfg h j) {e : Entry} (he : s.job j.id = some e) :
    e.hash.maxAttempts = j.maxAttempts := by
  obtain ⟨-, a, hfollows, hshown⟩ := lives_of_run hrun
  have hlife := (life_eq_some he ▸ hshown j.id).eq_of_some
  obtain ⟨l, hl, hmax, -, -⟩ := tally_of_accepted hfollows hj
  obtain rfl := Option.some.inj (hlife.symm.trans hl)
  exact hmax

/-! ### The theorem -/

variable (cfg)

/-- What a run may do next if no budget is too large for Lua to count. -/
structure Budgeted (h : List (Turn Store Call)) (s : Store) (c : Call) : Prop where
  admissible : Admissible cfg h s c
  budget : ∀ newID wall j, c.op = .enqueue newID wall (some j) →
    Distinguished (j.assigned newID).maxAttempts

/-- What the hash of a job says about its budget, against what happened in the run. -/
structure WithinBudget (h : List (Turn Store Call)) (s : Store) (id : String) (e : Hash) :
    Prop where
  attempt_eq : e.attempt = claims cfg h id
  attempt_le : e.attempt ≤ e.maxAttempts
  attempt_lt : e.state = .pending ∨ e.state = .scheduled ∨ e.state = .retry →
    e.attempt < e.maxAttempts
  recoveries_eq : e.recoveries = reaps cfg h id
  recoveries_le : e.recoveries ≤ e.attempt
  dead_cause : (s.dead.lookup id).isSome → Killed cfg h id ∨ e.attempt = e.maxAttempts

variable {cfg}

/-- **Budgets that Lua can count are kept**: the counters of every job are what they say, a waiting
job has an attempt left, a dead job was killed or has used up its budget, and no job was claimed
more often than its budget allows, whether or not it is still stored. -/
theorem within_budget (hrun : (machine cfg).Run (Budgeted cfg) h s) (id : String) :
    (∀ e, s.job id = some e → WithinBudget cfg h s id e.hash) ∧
    ∀ t ∈ h, ∀ newID wall o j, t.input.op = .enqueue newID wall o → reply cfg t = .stored j →
      j.id = id → claims cfg h id ≤ j.maxAttempts := by
  have hadm : (machine cfg).Run (Admissible cfg) h s := hrun.mono fun _ _ _ _ hok ↦ hok.admissible
  obtain ⟨hloc, a, hfollows, hshown⟩ := lives_of_run hadm
  refine ⟨fun e he ↦ ?_, fun t ht newID wall o j hop hreply hid ↦ ?_⟩
  · have hl : a id = _ := (life_eq_some he ▸ hshown id).eq_of_some
    obtain ⟨t, ht, newID, wall, o, j, hop, hreply, -, hmax, evs, hevs, -, htally⟩ :=
      tally_of_follows hfollows hl
    obtain ⟨hatt, hrec⟩ := counts_of_tally hevs htally
    refine ⟨hatt, htally.attempt_le, fun hwait ↦ htally.attempt_lt ?_, hrec, ?_, fun hdead ↦ ?_⟩
    · rcases hwait with h | h | h <;> simp [Store.phase, h, Phase.isWaiting]
    · have hle := htally.recoveries_le
      dsimp only at hle
      split_ifs at hle <;> omega
    · have hstate : e.hash.state = .dead := by
        have hhome : s.home id = some .dead := (hloc.counts id).2.2.2.1 hdead
        rw [home, he, Option.bind_some] at hhome
        exact placeOf_eq_some_iff.1 hhome
      rcases htally.dead_cause (by simp [Store.phase, hstate]) with ⟨w, hw⟩ | hspent
      · have hmem : (id, .killed w) ∈ history (events cfg) h :=
          mem_eventsAt.1 (by rw [hevs]; exact List.mem_cons_of_mem _ hw)
        obtain ⟨t', ht', hdid⟩ := mem_history.1 hmem
        obtain ⟨reason, hop', hreply'⟩ := mem_events_iff.1 hdid
        exact .inl ⟨t', ht', w, reason, hop', hreply'⟩
      · have hbudget : Distinguished e.hash.maxAttempts := by
          obtain ⟨newer, older, rfl⟩ := List.append_of_mem ht
          have hok := hrun.of_append.2
          rw [reply, exec, hop] at hreply
          obtain ⟨j₀, st, -, rfl, rfl, -⟩ := stored_of_run hreply
          rw [show e.hash.maxAttempts = _ from hmax]
          exact hok.budget newID wall j₀ hop
        exact .inr (le_antisymm htally.attempt_le (le_of_spent hbudget hspent))
  · subst hid
    exact claims_le_of_accepted hadm ⟨t, ht, newID, wall, o, hop, hreply⟩

end Runs

/-! ### Budgets that Lua cannot count -/

section Pill

variable {m k n : ℤ} {s : Store}

/-- The only job there is has been claimed `k` times and waits to be claimed again. -/
structure Pill (m k : ℤ) (s : Store) : Prop where
  ready : s.ready "q" = ["a"]
  idle : ∀ x, (s.active "q").lookup x = none
  job : ∃ h, s.job "a" = some ⟨h, none⟩ ∧ h.attempt = k ∧ h.maxAttempts = m

/-- It is claimed for the `k`-th time, until `d`. -/
structure Leased (m k d : ℤ) (s : Store) : Prop where
  ready : s.ready "q" = []
  lease : ∀ x, (s.active "q").lookup x = if x = "a" then some d else none
  job : ∃ h, s.job "a" = some ⟨h, none⟩ ∧ h.attempt = k ∧ h.maxAttempts = m

/-- A worker claims the job for a millisecond. -/
def crash (n : ℤ) : Call := ⟨n, .dequeue ⟨"w", ["q"], millisecond⟩⟩

/-- The worker is gone, and its lease is reaped. -/
def sweep (n : ℤ) : Call := ⟨n, .reap "q" 1⟩

/-- A hash that does not expire is seen by every call. -/
theorem seen_job {cfg : Config} {c : Call} {h : Hash} {id : String}
    (he : s.job id = some ⟨h, none⟩) : (seen cfg s c).job id = some ⟨h, none⟩ := by
  rw [seen, live]
  simp [he]

theorem leased_of_crash (hp : Pill m k s) (n : ℤ) :
    Leased m (k + 1) (n + 1) (exec .default s (crash n)).2 := by
  obtain ⟨h, he, hatt, hmax⟩ := hp.job
  have hjob : (seen .default s (crash n)).job "a" = some ⟨h, none⟩ := seen_job he
  have hready : (seen .default s (crash n)).ready "q" = ["a"] := hp.ready
  have hexec : (exec .default s (crash n)).2 =
      claim ((seen .default s (crash n)).lpop "q") n "w" 1 "q" "a" h := by
    show (claimNext (seen .default s (crash n)) n ⟨"w", ["q"], millisecond⟩).2 = _
    rw [claimNext, if_neg (by decide), if_neg (by decide), if_neg (by simp)]
    simp only [Script.dequeue, popJob, hready, hjob]
    rfl
  rw [hexec]
  refine ⟨by simp [claim, zaddActive, hset, lpop, hready], fun x ↦ ?_, claimed n "w" 1 h, ?_, ?_,
    hmax⟩
  · have hlease : (claim ((seen .default s (crash n)).lpop "q") n "w" 1 "q" "a" h).active "q" =
        (s.active "q").insert "a" (n + 1) := by
      simp only [claim, zaddActive, Function.update_self]
      rfl
    rw [hlease, Table.lookup_insert_eq, hp.idle x]
  · simp [claim, zaddActive, hset, lpop, hjob]
  · rw [← hatt]
    rfl

/-- What `reap.lua` fetches from a set whose only member is due. -/
theorem dueMembers_singleton {set : ZSet} {a : String} {t now : ℤ}
    (hset : ∀ x, set.lookup x = if x = a then some t else none) (hdue : t ≤ now) :
    dueMembers set now 1 = [a] := by
  have hmem : ∀ x, x ∈ Table.keysOf (set.due (fun _ ↦ true) now) ↔ x ∈ [a] := by
    intro x
    rw [Table.mem_keysOf_due, hset x, List.mem_singleton]
    constructor
    · rintro ⟨t', ht', -, -⟩
      by_contra hne
      rw [if_neg hne] at ht'
      cases ht'
    · rintro rfl
      exact ⟨t, if_pos rfl, hdue, rfl⟩
  have hperm := (List.perm_ext_iff_of_nodup (Table.keysOf_due_nodup _ _ _)
    (List.nodup_singleton a)).2 hmem
  rw [dueMembers, List.perm_singleton.1 hperm]
  rfl

/-- **Recovery**: the job waits again, or it is dead if Lua takes its budget for spent. -/
theorem recovered_of_sweep (hl : Leased m k n s) :
    (spent k m = false → Pill m k (exec .default s (sweep n)).2) ∧
    (spent k m = true → ((exec .default s (sweep n)).2.dead.lookup "a").isSome ∧
      ∃ e, (exec .default s (sweep n)).2.job "a" = some e ∧ e.hash.attempt = k ∧
        e.hash.maxAttempts = m) := by
  obtain ⟨h, he, rfl, rfl⟩ := hl.job
  have hjob : (seen .default s (sweep n)).job "a" = some ⟨h, none⟩ := seen_job he
  have hlease : ∀ x, ((seen .default s (sweep n)).active "q").lookup x =
      if x = "a" then some n else none := hl.lease
  have hready : (seen .default s (sweep n)).ready "q" = [] := hl.ready
  have hexec : (exec .default s (sweep n)).2 =
      recover ((seen .default s (sweep n)).zremActive "q" "a") n "q" "a" h := by
    show (reapQueue (seen .default s (sweep n)) n "q" 1).2 = _
    rw [reapQueue, if_neg (by decide), if_neg (by simp [reads_of_le]), Prod.map_snd, Script.reap,
      dueMembers_singleton hlease le_rfl, reapLoop, if_pos (by rw [hlease]; rfl)]
    simp only [show ((seen .default s (sweep n)).zremActive "q" "a").job "a" = _ from hjob]
    rfl
  rw [hexec, recover]
  refine ⟨fun hspent ↦ ?_, fun hspent ↦ ?_⟩
  · simp only [hspent, Bool.false_eq_true, if_false]
    refine ⟨by simp [lpush, hset, zremActive, hready], fun x ↦ ?_,
      { h with recoveries := h.recoveries + 1, owner := "", state := .pending }, ?_, rfl, rfl⟩
    · simp only [lpush, hset, zremActive, Function.update_self, Table.lookup_erase_eq, hlease]
      split_ifs <;> rfl
    · simp [lpush, hset, zremActive, hjob]
  · simp only [hspent, if_true]
    refine ⟨by simp, ⟨{ h with
      recoveries := h.recoveries + 1, owner := "", state := .dead,
      lastErr := orphaned h.attempt }, none⟩, ?_, rfl, rfl⟩
    simp [hset, zremActive, hjob]

/-- What the runs to a poison pill have done: nothing after `n`, and no kill. -/
def Quiet (n : ℤ) (h : List (Turn Store Call)) : Prop :=
  ∀ t ∈ h, t.input.now ≤ n ∧ ∀ w i reason, t.input.op ≠ .kill w i reason

/-- A crash and a sweep can follow at any time. -/
theorem run_crash_sweep {h : List (Turn Store Call)}
    (hrun : (machine .default).Run (Admissible .default) h s) (hquiet : Quiet n h) :
    ∃ h', (machine .default).Run (Admissible .default) h'
        (exec .default (exec .default s (crash n)).2 (sweep (n + 1))).2 ∧ Quiet (n + 2) h' := by
  have hcrash : Admissible .default h s (crash n) :=
    ⟨fun t ht ↦ (hquiet t ht).1, fun _ _ _ hop ↦ by cases hop⟩
  have hsweep : Admissible .default (⟨s, crash n⟩ :: h) (exec .default s (crash n)).2
      (sweep (n + 1)) := by
    refine ⟨fun t ht ↦ ?_, fun _ _ _ hop ↦ by cases hop⟩
    rcases List.mem_cons.1 ht with rfl | ht
    · show n ≤ n + 1
      omega
    · exact (hquiet t ht).1.trans (show n ≤ n + 1 by omega)
  have hnext : ∀ s c, (machine .default).next s c = (exec .default s c).2 := fun _ _ ↦ rfl
  have hrun' := Machine.Run.step (sweep (n + 1)) (.step (crash n) hrun hcrash) hsweep
  rw [hnext, hnext] at hrun'
  refine ⟨_, hrun', fun t ht ↦ ?_⟩
  rcases List.mem_cons.1 ht with rfl | ht
  · exact ⟨show n + 1 ≤ n + 2 by omega, fun _ _ _ hop ↦ by cases hop⟩
  · rcases List.mem_cons.1 ht with rfl | ht
    · exact ⟨show n ≤ n + 2 by omega, fun _ _ _ hop ↦ by cases hop⟩
    · exact ⟨(hquiet t ht).1.trans (by omega), (hquiet t ht).2⟩

/-- As long as Lua does not take the budget for spent, the pill can be claimed again. -/
theorem pill_run (hm : 0 < m) (k : ℕ) (hk : ∀ i : ℕ, i ≤ k → spent i m = false) :
    ∃ h s n, (machine .default).Run (Admissible .default) h s ∧ Quiet n h ∧ Pill m k s := by
  induction k with
  | zero =>
    refine ⟨_, _, 0, .step ⟨0, .enqueue "a" 0 (some (.plain "q" "t" m))⟩ .start ⟨by simp, by simp⟩,
      fun t ht ↦ ?_, rfl, fun _ ↦ rfl, _, rfl, rfl, ?_⟩
    · obtain rfl := List.mem_singleton.1 ht
      exact ⟨le_rfl, fun _ _ _ hop ↦ by cases hop⟩
    · show (if m ≤ 0 then defaultMaxAttempts else m) = m
      rw [if_neg (by omega)]
  | succ k ih =>
    obtain ⟨h, s, n, hrun, hquiet, hp⟩ := ih fun i hi ↦ hk i (by omega)
    obtain ⟨h', hrun', hquiet'⟩ := run_crash_sweep hrun hquiet
    refine ⟨h', _, n + 2, hrun', hquiet', ?_⟩
    have hspent := hk (k + 1) le_rfl
    push_cast at hspent ⊢
    exact (recovered_of_sweep (leased_of_crash hp n)).1 hspent

/-- **Early death.** If a budget rounds to the same double as the attempt before it, a run in which
every worker crashes ends with the job dead, not killed, and with attempts left. -/
theorem early_death (hm : 0 < m) (hbad : ¬ Distinguished m) :
    ∃ h s e, (machine .default).Run (Admissible .default) h s ∧ s.job "a" = some e ∧
      (s.dead.lookup "a").isSome ∧ ¬ Killed .default h "a" ∧ e.hash.maxAttempts = m ∧
      e.hash.attempt < m := by
  have hlast : spent (m - 1) m = true := decide_eq_true (not_lt.1 hbad)
  have hex : ∃ k : ℕ, spent k m = true :=
    ⟨(m - 1).toNat, by rwa [Int.toNat_of_nonneg (by omega)]⟩
  have hfirst : spent 0 m = false := by
    refine decide_eq_false (not_le.2 ?_)
    calc luaNumber 0 < luaNumber 1 := by decide
      _ ≤ luaNumber m := luaNumber_mono (by omega)
  -- the first number of claims that Lua takes for the whole budget
  rcases hk : Nat.find hex with _ | k
  · have hzero := Nat.find_spec hex
    rw [hk, Nat.cast_zero, hfirst] at hzero
    cases hzero
  · have hspent : spent ((k : ℤ) + 1) m = true := by
      have hfound := Nat.find_spec hex
      rw [hk] at hfound
      exact_mod_cast hfound
    have hbefore : ∀ i : ℕ, i ≤ k → spent i m = false := fun i hi ↦
      Bool.eq_false_iff.2 (Nat.find_min hex (by omega))
    have hlt : (k : ℤ) + 1 < m := by
      have hle : Nat.find hex ≤ (m - 1).toNat :=
        Nat.find_min' hex (by rwa [Int.toNat_of_nonneg (by omega)])
      omega
    obtain ⟨h, s, n, hrun, hquiet, hp⟩ := pill_run hm k hbefore
    obtain ⟨h', hrun', hquiet'⟩ := run_crash_sweep hrun hquiet
    obtain ⟨hdead, e, he, hatt, hmax⟩ := (recovered_of_sweep (leased_of_crash hp n)).2 hspent
    refine ⟨h', _, e, hrun', he, hdead, ?_, hmax, by rw [hatt]; exact hlt⟩
    rintro ⟨t, ht, w, reason, hop, -⟩
    exact (hquiet' t ht).2 w "a" reason hop

/-- **Poison pills terminate.** In every run whose budgets Lua can count, the counters of every job
are what they say, a waiting job has an attempt left, a dead job was killed or has used up its
budget, and no job was claimed more often than its budget allows, whether or not it is still stored.
And every budget that Lua cannot count leads to a job that is dead, not killed, and has attempts
left. -/
theorem poison_pills_terminate (cfg : Config) :
    (∀ h s, (machine cfg).Run (Budgeted cfg) h s → ∀ id,
      (∀ e, s.job id = some e → WithinBudget cfg h s id e.hash) ∧
      ∀ t ∈ h, ∀ newID wall o j, t.input.op = .enqueue newID wall o → reply cfg t = .stored j →
        j.id = id → claims cfg h id ≤ j.maxAttempts) ∧
    ∀ m, 0 < m → ¬ Distinguished m →
      ∃ h s e, (machine .default).Run (Admissible .default) h s ∧ s.job "a" = some e ∧
        (s.dead.lookup "a").isSome ∧ ¬ Killed .default h "a" ∧ e.hash.maxAttempts = m ∧
        e.hash.attempt < m :=
  ⟨fun _ _ hrun id ↦ within_budget hrun id, fun _ hm hbad ↦ early_death hm hbad⟩

/-- A job is enqueued and claimed once: the run is within its budgets, and the job has used one of
its three attempts. -/
theorem poison_pills_terminate_claimed : ∃ h s, (machine .default).Run (Budgeted .default) h s ∧
    ∃ e, s.job "a" = some e ∧ e.hash.attempt = 1 ∧ claims .default h "a" = 1 ∧
      e.hash.attempt ≤ e.hash.maxAttempts := by
  have hrun : (machine .default).Run (Budgeted .default) _ _ :=
    .step ⟨1, .dequeue ⟨"w", ["q"], millisecond⟩⟩
      (.step ⟨0, .enqueue "a" 0 (some (.plain "q" "t" 3))⟩ .start
        ⟨⟨by simp, by simp⟩, fun _ _ _ hop ↦ by
          cases hop
          exact distinguished_of_le (by decide) (by decide)⟩)
      ⟨⟨by simp, by simp⟩, fun _ _ _ hop ↦ by cases hop⟩
  have hbudget := ((poison_pills_terminate .default).1 _ _ hrun "a").1 _ rfl
  refine ⟨_, _, hrun, _, rfl, rfl, ?_, hbudget.attempt_le⟩
  exact Int.ofNat_inj.1 hbudget.attempt_eq.symm

/-- A job with a budget of `2 ^ 53 + 1` attempts is dead-lettered with an attempt left, and nobody
killed it. -/
theorem dead_with_attempts_left :
    ∃ h s e, (machine .default).Run (Admissible .default) h s ∧ s.job "a" = some e ∧
      (s.dead.lookup "a").isSome ∧ ¬ Killed .default h "a" ∧ e.hash.maxAttempts = 2 ^ 53 + 1 ∧
      e.hash.attempt < 2 ^ 53 + 1 :=
  early_death (by decide) (by rw [Distinguished]; decide)

end Pill

end TaskQueue.Redis
