import TaskQueue.Data.Text
import TaskQueue.Scheduler.Model

/-!
# Ticks and their jobs

A scheduler enqueues the job of a tick before it advances the schedule, under a unique key made of
the entry's ID and the fire time. Two promises rest on that key.

* **No tick is advanced without a job** (`no_tick_advanced_without_job`). A scheduler claims a tick
  only after its `Enqueue` went through or was refused as a duplicate, and a key that is held was
  taken by an `Enqueue` of the very same tick: keys of different ticks differ
  (`cronUniqueKey_inj`), and nobody else uses them.
* **A tick yields at most one job** (`tick_fires_at_most_once`). Here the key is not enough. It
  expires after `cronUniqueTTL`, and until the tick is claimed the schedule stays due: a scheduler
  that pauses between `Enqueue` and `ClaimCron` for longer than that leaves the tick to be fired a
  second time (`tick_fires_twice`). As long as nobody enqueues a tick that late, there is one job.
-/

namespace TaskQueue.Scheduler

open Redis (Store Config exec seen milliseconds)

/-! ### Keys -/

/-- **Keys of different ticks differ**, whatever characters the entry IDs are made of. -/
theorem cronUniqueKey_inj {id id' : String} {t t' : Time} :
    cronUniqueKey id t = cronUniqueKey id' t' ↔
      id = id' ∧ Redis.unixMilli t = Redis.unixMilli t' := by
  have hinj : cronUniqueKey id t = cronUniqueKey id' t' ↔
      "cron:" ++ id = "cron:" ++ id' ∧ Redis.unixMilli t = Redis.unixMilli t' :=
    Text.numbered_inj ':' (by decide) (by decide)
  rw [hinj, String.append_right_inj]

theorem cronUniqueKey_ne_empty (id : String) (t : Time) : cronUniqueKey id t ≠ "" := by
  intro heq
  have hlen := congrArg String.length heq
  simp [cronUniqueKey] at hlen

section

variable {ι : Type} {entries : ι → Entries} {cfg : Config}

/-! ### Commands -/

/-- A scheduler enqueues jobs of ticks and nothing else. -/
theorem tickJob_of_command {es : Entries} {p : Pc} {a : Action} {newID : String} {wall : Time}
    {o : Option Job} (hcmd : command es p a = some (.enqueue newID wall o)) :
    ∃ ce d, o = some (tickJob ce d) := by
  cases a with
  | seed id wall' =>
    obtain ⟨ce, -, hce⟩ := Option.bind_eq_some_iff.1 hcmd
    dsimp only at hce
    split_ifs at hce
    cases hce
  | enqueue wall' newID' =>
    simp only [command] at hcmd
    split at hcmd
    · next d rest =>
      obtain ⟨⟨j, next⟩, hplan, hop⟩ := Option.map_eq_some_iff.1 hcmd
      obtain ⟨ce, -, hplan⟩ := Option.bind_eq_some_iff.1 hplan
      obtain ⟨next', -, heq⟩ := Option.map_eq_some_iff.1 hplan
      cases heq
      cases hop
      exact ⟨ce, d, rfl⟩
    · cases hcmd
  | read | claim =>
    simp only [command] at hcmd
    split at hcmd <;> cases hcmd
  | crash => cases hcmd

/-- A scheduler claims the tick it is in the middle of. -/
theorem claiming_of_command {es : Entries} {p : Pc} {a : Action} {id : String} {t t' : Time}
    (hcmd : command es p a = some (.claimCron id t t')) :
    ∃ rest, p = .claiming ⟨id, t⟩ t' rest := by
  cases a with
  | seed id' wall =>
    obtain ⟨ce, -, hce⟩ := Option.bind_eq_some_iff.1 hcmd
    dsimp only at hce
    split_ifs at hce
    cases hce
  | enqueue wall newID =>
    simp only [command] at hcmd
    split at hcmd
    · obtain ⟨x, -, hop⟩ := Option.map_eq_some_iff.1 hcmd
      cases hop
    · cases hcmd
  | claim =>
    simp only [command] at hcmd
    split at hcmd
    · next d next rest =>
      cases hcmd
      exact ⟨rest, rfl⟩
    · cases hcmd
  | read =>
    simp only [command] at hcmd
    split at hcmd <;> cases hcmd
  | crash => cases hcmd

variable (entries cfg)

/-- The unique key of the `Enqueue` that runs in a step. -/
def enqueuedKey (s : System ι) (c : Input ι) : Option String :=
  match ran entries cfg s c with
  | some (.enqueue _ _ (some j), _) => some j.uniqueKey
  | _ => none

/-- The unique key under which a turn stored a job: the broker's own reply to the `Enqueue` was nil,
whether or not it reached the caller. -/
def storedKey (t : Turn (System ι) (Input ι)) : Option String :=
  match ran entries cfg t.before t.input with
  | some (.enqueue _ _ (some j), .stored _) => some j.uniqueKey
  | _ => none

/-- What a step may not be: a command of another producer that uses the keys of ticks, or a
`ClaimCron` of anybody but a scheduler. -/
structure Admissible (c : Input ι) : Prop where
  producers : ∀ newID wall j, c.step = .other (.enqueue newID wall (some j)) →
    ∀ id t, j.uniqueKey ≠ cronUniqueKey id t
  claims : ∀ id t t', c.step ≠ .other (.claimCron id t t')

variable {entries cfg}

theorem admissible_act (now : ℤ) (i : ι) (a : Action) (fate : Fate) :
    Admissible ⟨now, .act i a, fate⟩ where
  producers _ _ _ h := nomatch h
  claims _ _ _ h := nomatch h

theorem ran_eq_some {s : System ι} {c : Input ι} {op : Redis.Op} {r : Reply}
    (hran : ran entries cfg s c = some (op, r)) :
    c.fate ≠ .unsent ∧ sent entries s c.step = some op ∧
      (exec cfg s.store ⟨c.now, op⟩).1 = r := by
  rw [ran] at hran
  split_ifs at hran with hfate
  obtain ⟨op', hcmd, heq⟩ := Option.map_eq_some_iff.1 hran
  obtain ⟨rfl, rfl⟩ := Prod.mk.inj heq
  exact ⟨hfate, hcmd, rfl⟩

variable [DecidableEq ι]

theorem store_next {s : System ι} {c : Input ι} {op : Redis.Op} {r : Reply}
    (hran : ran entries cfg s c = some (op, r)) :
    (next entries cfg s c).store = (exec cfg s.store ⟨c.now, op⟩).2 := by
  simp only [next, hran]

/-- A step that enqueues no job with a key leaves the key as it is, or as it is seen at that
time. -/
theorem unique_next {s : System ι} {c : Input ι} {k : String}
    (hkey : enqueuedKey entries cfg s c ≠ some k) :
    (next entries cfg s c).store.unique k = s.store.unique k ∨
      (next entries cfg s c).store.unique k = (s.store.live cfg.visible c.now).unique k := by
  rcases hran : ran entries cfg s c with _ | ⟨op, r⟩
  · exact .inl (by simp only [next, hran])
  · rw [store_next hran]
    refine .inr (Redis.unique_run fun newID wall j hop heq ↦ hkey ?_)
    cases hop
    simp only [enqueuedKey, hran, heq]

/-- **An `Enqueue` of a tick** finds its key held and stores nothing, or takes it and stores the
job. -/
theorem tick_cases {s : System ι} {c : Input ι} (hok : Admissible c) {id : String} {t : Time}
    (hkey : enqueuedKey entries cfg s c = some (cronUniqueKey id t)) :
    (∃ u, (s.store.live cfg.visible c.now).unique (cronUniqueKey id t) = some u ∧
      storedKey entries cfg ⟨s, c⟩ = none ∧
      (next entries cfg s c).store.unique (cronUniqueKey id t) = some u) ∨
    (s.store.live cfg.visible c.now).unique (cronUniqueKey id t) = none ∧
      storedKey entries cfg ⟨s, c⟩ = some (cronUniqueKey id t) ∧
      ∃ jobID e, (next entries cfg s c).store.job jobID = some e ∧
        e.hash.uniqueKey = cronUniqueKey id t ∧
        (next entries cfg s c).store.unique (cronUniqueKey id t) =
          some ⟨jobID, c.now + milliseconds cronUniqueTTL⟩ := by
  unfold enqueuedKey at hkey
  split at hkey
  · next newID wall j r hran =>
    obtain ⟨-, hcmd, hreply⟩ := ran_eq_some hran
    obtain ⟨ce, d, hj⟩ : ∃ ce d, j = tickJob ce d := by
      rcases hstep : c.step with ⟨i, a⟩ | op
      · rw [hstep] at hcmd
        obtain ⟨ce, d, hj⟩ := tickJob_of_command hcmd
        exact ⟨ce, d, Option.some.inj hj⟩
      · rw [hstep] at hcmd
        obtain rfl := Option.some.inj hcmd
        exact absurd (Option.some.inj hkey) (hok.producers newID wall j hstep id t)
    have hkey : j.uniqueKey = cronUniqueKey id t := Option.some.inj hkey
    have hwindow : j.uniqueWindow = cronUniqueTTL := by rw [hj]; rfl
    rw [store_next hran, ← hkey]
    rw [exec] at hreply ⊢
    dsimp only [Redis.run] at hreply ⊢
    rcases Redis.enqueue_keyed (seen cfg s.store ⟨c.now, .enqueue newID wall (some j)⟩) c.now newID
        wall (j := j) (by rw [hj]; exact ce.queue_ne) (by rw [hj]; exact ce.type_ne)
        (hkey ▸ cronUniqueKey_ne_empty id t) (by rw [hwindow]; decide) with
      ⟨u, hu, heq⟩ | ⟨hu, j', s', heq, ⟨e, he, hhash⟩, hunique⟩
    · rw [heq] at hreply ⊢
      refine .inl ⟨u, hu, ?_, hu⟩
      simp only [storedKey, hran, ← hreply]
      rfl
    · rw [heq] at hreply ⊢
      refine .inr ⟨hu, ?_, j'.id, e, he, hhash, ?_⟩
      · simp only [storedKey, hran, ← hreply]
        rfl
      · rw [← hwindow]
        exact (congrFun hunique j.uniqueKey).trans (Function.update_self _ _ _)
  · cases hkey

/-! ### Ticks that are advanced have a job -/

/-- A key that is held was taken by an `Enqueue` of its tick, and is held for `cronUniqueTTL` from
then on. -/
theorem stored_of_held {h : List (Turn (System ι) (Input ι))} {s : System ι}
    (hrun : (machine entries cfg).Run (fun _ _ ↦ Admissible) h s) (id : String) (t : Time) :
    ∀ u, s.store.unique (cronUniqueKey id t) = some u → ∃ turn ∈ h,
      storedKey entries cfg turn = some (cronUniqueKey id t) ∧
        u.expireAt = turn.input.now + milliseconds cronUniqueTTL := by
  refine hrun.invariant (P := fun h s ↦ ∀ u, s.store.unique (cronUniqueKey id t) = some u →
    ∃ turn ∈ h, storedKey entries cfg turn = some (cronUniqueKey id t) ∧
      u.expireAt = turn.input.now + milliseconds cronUniqueTTL) ?_ ?_
  · intro u (hu : none = some u)
    cases hu
  intro h s c _ ih hok u hu
  have hold : ∀ u, s.store.unique (cronUniqueKey id t) = some u → ∃ turn ∈ ⟨s, c⟩ :: h,
      storedKey entries cfg turn = some (cronUniqueKey id t) ∧
        u.expireAt = turn.input.now + milliseconds cronUniqueTTL := by
    intro u hu
    obtain ⟨turn, hmem, hturn⟩ := ih u hu
    exact ⟨turn, List.mem_cons_of_mem _ hmem, hturn⟩
  have hlive : ∀ u, (s.store.live cfg.visible c.now).unique (cronUniqueKey id t) = some u →
      s.store.unique (cronUniqueKey id t) = some u :=
    fun u hu ↦ (Option.filter_eq_some_iff.1 hu).1
  by_cases hkey : enqueuedKey entries cfg s c = some (cronUniqueKey id t)
  · rcases tick_cases hok hkey with ⟨u', hu', -, hnext⟩ | ⟨-, hstored, jobID, e, -, -, hnext⟩
    · obtain rfl := Option.some.inj (hnext.symm.trans hu)
      exact hold u' (hlive u' hu')
    · obtain rfl := Option.some.inj (hnext.symm.trans hu)
      exact ⟨⟨s, c⟩, List.mem_cons_self, hstored, rfl⟩
  · rcases unique_next hkey with hnext | hnext
    · exact hold u (hnext.symm.trans hu)
    · exact hold u (hlive u (hnext.symm.trans hu))

/-- A scheduler gets to `ClaimCron` by an `Enqueue` of the same tick that ran. -/
theorem claiming_next {s : System ι} {c : Input ι} {i : ι} {d : DueCronEntry} {t : Time}
    {rest : List DueCronEntry} (hpc : (next entries cfg s c).pc i = .claiming d t rest) :
    s.pc i = .claiming d t rest ∨
      enqueuedKey entries cfg s c = some (cronUniqueKey d.id d.fireAt) := by
  rcases hstep : c.step with ⟨i₀, a⟩ | op
  · simp only [next, hstep] at hpc
    by_cases hi : i = i₀
    · subst hi
      rw [Function.update_self] at hpc
      refine (resume_eq_claiming hpc).imp_right ?_
      rintro ⟨wall, newID, j, rfl, hfiring, hplan, htold⟩
      have hran : ran entries cfg s c ≠ none := by
        intro hnone
        simp [told, hnone] at htold
      obtain ⟨⟨op, r⟩, hran⟩ := Option.ne_none_iff_exists'.1 hran
      obtain ⟨-, hcmd, -⟩ := ran_eq_some hran
      rw [hstep, sent, hfiring, command, hplan] at hcmd
      obtain ⟨ce, -, hplan⟩ := Option.bind_eq_some_iff.1 hplan
      obtain ⟨next', -, heq⟩ := Option.map_eq_some_iff.1 hplan
      cases heq
      obtain rfl := Option.some.inj hcmd
      simp only [enqueuedKey, hran]
      rfl
    · rw [Function.update_of_ne hi] at hpc
      exact .inl hpc
  · simp only [next, hstep] at hpc
    exact .inl hpc

/-- Whoever is about to claim a tick can rely on its job. -/
theorem stored_of_claiming {h : List (Turn (System ι) (Input ι))} {s : System ι}
    (hrun : (machine entries cfg).Run (fun _ _ ↦ Admissible) h s) {i : ι} {d : DueCronEntry}
    {t : Time} {rest : List DueCronEntry} (hpc : s.pc i = .claiming d t rest) :
    ∃ turn ∈ h, storedKey entries cfg turn = some (cronUniqueKey d.id d.fireAt) := by
  induction hrun with
  | start => cases hpc
  | @step h s c hrun hok ih =>
    rcases claiming_next hpc with hold | hkey
    · obtain ⟨turn, hmem, hstored⟩ := ih hold
      exact ⟨turn, List.mem_cons_of_mem _ hmem, hstored⟩
    · rcases tick_cases hok hkey with ⟨u, hu, -⟩ | ⟨-, hstored, -⟩
      · obtain ⟨turn, hmem, hstored, -⟩ :=
          stored_of_held hrun d.id d.fireAt u (Option.filter_eq_some_iff.1 hu).1
        exact ⟨turn, List.mem_cons_of_mem _ hmem, hstored⟩
      · exact ⟨⟨s, c⟩, List.mem_cons_self, hstored⟩

omit [DecidableEq ι] in
/-- A job is stored by an `Enqueue` that runs. -/
theorem enqueuedKey_of_storedKey {t : Turn (System ι) (Input ι)} {k : String}
    (hstored : storedKey entries cfg t = some k) :
    enqueuedKey entries cfg t.before t.input = some k ∧ t.input.fate ≠ .unsent := by
  unfold storedKey at hstored
  split at hstored
  · next newID wall j j' hran =>
    exact ⟨by simp only [enqueuedKey, hran, hstored], (ran_eq_some hran).1⟩
  · cases hstored

/-- The job of a tick is there once it was stored. -/
theorem job_of_storedKey {t : Turn (System ι) (Input ι)} (hok : Admissible t.input) {id : String}
    {fireAt : Time} (hstored : storedKey entries cfg t = some (cronUniqueKey id fireAt)) :
    ∃ jobID e, ((machine entries cfg).after t).store.job jobID = some e ∧
      e.hash.uniqueKey = cronUniqueKey id fireAt := by
  rcases tick_cases hok (enqueuedKey_of_storedKey hstored).1 with
    ⟨u, -, hnone, -⟩ | ⟨-, -, jobID, e, he, hkey, -⟩
  · rw [show storedKey entries cfg ⟨t.before, t.input⟩ = _ from hstored] at hnone
    cases hnone
  · exact ⟨jobID, e, he, hkey⟩

variable (entries cfg)

/-- The turn was a `ClaimCron` that won its tick. -/
def Claims (t : Turn (System ι) (Input ι)) (id : String) (firedAt nextAt : Time) : Prop :=
  ran entries cfg t.before t.input = some (.claimCron id firedAt nextAt, .won true)

variable {entries cfg}

/-- **No cron tick is advanced without a job.** Before a `ClaimCron` of a tick succeeds, the broker
has answered an `Enqueue` with the key of that tick with nil, and stored its job; if no reply was
lost on the way, that `Enqueue` returned nil to its caller. No `Enqueue` counts for two ticks that
differ in the entry or in the millisecond they fire at. -/
theorem no_tick_advanced_without_job {h : List (Turn (System ι) (Input ι))} {s : System ι}
    {turn : Turn (System ι) (Input ι)} {id : String} {firedAt nextAt : Time}
    (hrun : (machine entries cfg).Run (fun _ _ ↦ Admissible) (turn :: h) s)
    (hclaim : Claims entries cfg turn id firedAt nextAt) :
    (∃ t ∈ h, storedKey entries cfg t = some (cronUniqueKey id firedAt) ∧
      ∃ jobID e, ((machine entries cfg).after t).store.job jobID = some e ∧
        e.hash.uniqueKey = cronUniqueKey id firedAt) ∧
    ((∀ t ∈ h, t.input.fate ≠ .lost) →
      ∃ t ∈ h, storedKey entries cfg t = some (cronUniqueKey id firedAt) ∧
        t.input.fate = .answered) ∧
    ∀ t id' firedAt', storedKey entries cfg t = some (cronUniqueKey id firedAt) →
      storedKey entries cfg t = some (cronUniqueKey id' firedAt') →
      id' = id ∧ Redis.unixMilli firedAt' = Redis.unixMilli firedAt := by
  obtain ⟨hprev, hok, -⟩ := hrun.of_cons
  obtain ⟨-, hsent, -⟩ := ran_eq_some hclaim
  obtain ⟨i, rest, hpc⟩ : ∃ i rest, turn.before.pc i = .claiming ⟨id, firedAt⟩ nextAt rest := by
    rcases hstep : turn.input.step with ⟨i, a⟩ | op
    · rw [hstep] at hsent
      exact ⟨i, claiming_of_command hsent⟩
    · rw [hstep] at hsent
      obtain rfl := Option.some.inj hsent
      exact absurd hstep (hok.claims id firedAt nextAt)
  obtain ⟨t, hmem, hstored⟩ := stored_of_claiming hprev hpc
  obtain ⟨older, -, hadm⟩ := hprev.of_mem hmem
  refine ⟨⟨t, hmem, hstored, job_of_storedKey hadm hstored⟩, fun hlost ↦ ⟨t, hmem, hstored, ?_⟩,
    fun t' id' firedAt' ht ht' ↦ ?_⟩
  · have hsent := (enqueuedKey_of_storedKey hstored).2
    have hnot := hlost t hmem
    rcases hfate : t.input.fate with _ | _ | _
    · rfl
    · exact absurd hfate hnot
    · exact absurd hfate hsent
  · exact cronUniqueKey_inj.1 (Option.some.inj (ht'.symm.trans ht))

/-- An entry that fires every millisecond, under the ID `e`. -/
def everyMillisecond : Entries := fun id ↦
  if id = "e" then some ⟨"q", "t", [], 1, fun t ↦ t + millisecond, by decide, by decide⟩ else none

/-- A scheduler seeds the entry, reads it as due, enqueues its tick and claims it. -/
theorem no_tick_advanced_without_job_claimed :
    ∃ turn h s, (machine (fun _ : Unit ↦ everyMillisecond) .default).Run (fun _ _ ↦ Admissible)
        (turn :: h) s ∧
      Claims (fun _ : Unit ↦ everyMillisecond) .default turn "e" millisecond (2 * millisecond) ∧
      ∃ t ∈ h, storedKey (fun _ : Unit ↦ everyMillisecond) .default t =
        some (cronUniqueKey "e" millisecond) ∧ t.input.fate = .answered := by
  have hrun : (machine (fun _ : Unit ↦ everyMillisecond) .default).Run (fun _ _ ↦ Admissible) _ _ :=
    .step ⟨1, .act () .claim, .answered⟩
      (.step ⟨1, .act () (.enqueue 0 "a"), .answered⟩
        (.step ⟨1, .act () .read, .answered⟩
          (.step ⟨0, .act () (.seed "e" 0), .answered⟩ .start (admissible_act _ _ _ _))
          (admissible_act _ _ _ _))
        (admissible_act _ _ _ _))
      (admissible_act _ _ _ _)
  refine ⟨_, _, _, hrun, ?claim, (no_tick_advanced_without_job hrun ?claim).2.1 (by simp)⟩
  rfl

/-! ### Ticks fire once, as long as the key is held -/

variable (entries cfg)

/-- How many jobs were stored for a tick. -/
def fires (h : List (Turn (System ι) (Input ι))) (id : String) (fireAt : Time) : ℕ :=
  h.countP fun t ↦ storedKey entries cfg t = some (cronUniqueKey id fireAt)

/-- The key of a tick is still held, by the server time, from every time a job of that tick was
stored. -/
def Held (h : List (Turn (System ι) (Input ι))) (now : ℤ) (id : String) (fireAt : Time) : Prop :=
  ∀ t ∈ h, storedKey entries cfg t = some (cronUniqueKey id fireAt) →
    cfg.visible now (t.input.now + milliseconds cronUniqueTTL) = true

/-- What a run may do next for ticks to fire once: the server time does not go back, and a tick is
not enqueued after its key expired. -/
structure Prompt (h : List (Turn (System ι) (Input ι))) (s : System ι) (c : Input ι) : Prop where
  admissible : Admissible c
  clock : ∀ t ∈ h, t.input.now ≤ c.now
  held : ∀ id fireAt, enqueuedKey entries cfg s c = some (cronUniqueKey id fireAt) →
    Held entries cfg h c.now id fireAt

variable {entries cfg}

/-- Once a job of a tick was stored, the key is in the broker until it expires. -/
theorem held_or_past {h : List (Turn (System ι) (Input ι))} {s : System ι}
    (hrun : (machine entries cfg).Run (Prompt entries cfg) h s) (id : String) (fireAt : Time) :
    ∀ t ∈ h, storedKey entries cfg t = some (cronUniqueKey id fireAt) →
      (∃ u, s.store.unique (cronUniqueKey id fireAt) = some u ∧
        u.expireAt = t.input.now + milliseconds cronUniqueTTL) ∨
      ∃ t' ∈ h, cfg.visible t'.input.now (t.input.now + milliseconds cronUniqueTTL) = false := by
  induction hrun with
  | start => exact fun t ht ↦ nomatch ht
  | @step h s c hrun hok ih =>
    intro t ht hstored
    rcases List.mem_cons.1 ht with rfl | ht
    · -- the key was taken just now
      rcases tick_cases hok.admissible (enqueuedKey_of_storedKey hstored).1 with
        ⟨u, -, hnone, -⟩ | ⟨-, -, jobID, e, -, -, hnext⟩
      · rw [hstored] at hnone
        cases hnone
      · exact .inl ⟨_, hnext, rfl⟩
    · rcases ih t ht hstored with ⟨u, hu, hexp⟩ | ⟨t', ht', hpast⟩
      · by_cases hseen : cfg.visible c.now u.expireAt = true
        · have hlive : (s.store.live cfg.visible c.now).unique (cronUniqueKey id fireAt) =
              some u := Option.filter_eq_some_iff.2 ⟨hu, hseen⟩
          refine .inl ⟨u, ?_, hexp⟩
          by_cases hkey : enqueuedKey entries cfg s c = some (cronUniqueKey id fireAt)
          · rcases tick_cases hok.admissible hkey with ⟨u', hu', -, hnext⟩ | ⟨hnone, -⟩
            · rw [hlive] at hu'
              obtain rfl := Option.some.inj hu'
              exact hnext
            · rw [hlive] at hnone
              cases hnone
          · rcases unique_next hkey with hnext | hnext
            · exact hnext.trans hu
            · exact hnext.trans hlive
        · exact .inr ⟨⟨s, c⟩, List.mem_cons_self, hexp ▸ Bool.not_eq_true _ ▸ hseen⟩
      · exact .inr ⟨t', List.mem_cons_of_mem _ ht', hpast⟩

/-- A job of a tick is stored only if none was before. -/
theorem not_stored_of_held (hvisible : Redis.Expires cfg.visible)
    {h : List (Turn (System ι) (Input ι))} {s : System ι} {c : Input ι}
    (hrun : (machine entries cfg).Run (Prompt entries cfg) h s) (hok : Admissible c)
    (hclock : ∀ t ∈ h, t.input.now ≤ c.now) {id : String} {fireAt : Time}
    (hheld : Held entries cfg h c.now id fireAt)
    (hstored : storedKey entries cfg ⟨s, c⟩ = some (cronUniqueKey id fireAt)) :
    ∀ t ∈ h, storedKey entries cfg t ≠ some (cronUniqueKey id fireAt) := by
  intro t ht hbefore
  have hseen := hheld t ht hbefore
  rcases held_or_past hrun id fireAt t ht hbefore with ⟨u, hu, hexp⟩ | ⟨t', ht', hpast⟩
  · have hlive : (s.store.live cfg.visible c.now).unique (cronUniqueKey id fireAt) = some u :=
      Option.filter_eq_some_iff.2 ⟨hu, hexp ▸ hseen⟩
    rcases tick_cases hok (enqueuedKey_of_storedKey hstored).1 with ⟨_, -, hnone, -⟩ | ⟨hnone, -⟩
    · rw [hstored] at hnone
      cases hnone
    · rw [show (s.store.live cfg.visible c.now).unique _ = none from hnone] at hlive
      cases hlive
  · rw [hvisible _ _ _ (hclock t' ht') hseen] at hpast
    cases hpast

omit [DecidableEq ι] in
theorem fires_cons (t : Turn (System ι) (Input ι)) (h : List (Turn (System ι) (Input ι)))
    (id : String) (fireAt : Time) :
    fires entries cfg (t :: h) id fireAt = fires entries cfg h id fireAt +
      if storedKey entries cfg t = some (cronUniqueKey id fireAt) then 1 else 0 := by
  simp [fires, List.countP_cons]

omit [DecidableEq ι] in
theorem fires_eq_zero {h : List (Turn (System ι) (Input ι))} {id : String} {fireAt : Time}
    (hnone : ∀ t ∈ h, storedKey entries cfg t ≠ some (cronUniqueKey id fireAt)) :
    fires entries cfg h id fireAt = 0 :=
  List.countP_eq_zero.2 fun t ht ↦ by simpa using hnone t ht

theorem fires_le_one (hvisible : Redis.Expires cfg.visible)
    {h : List (Turn (System ι) (Input ι))} {s : System ι}
    (hrun : (machine entries cfg).Run (Prompt entries cfg) h s) (id : String) (fireAt : Time) :
    fires entries cfg h id fireAt ≤ 1 := by
  induction hrun with
  | start => exact Nat.zero_le 1
  | @step h s c hrun hok ih =>
    rw [fires_cons]
    split_ifs with hstored
    · have hheld := hok.held id fireAt (enqueuedKey_of_storedKey hstored).1
      rw [fires_eq_zero (not_stored_of_held hvisible hrun hok.admissible hok.clock hheld hstored)]
    · exact ih

omit [DecidableEq ι] in
/-- With one job stored for a tick, one turn stored it. -/
theorem eq_of_fires_le_one {h : List (Turn (System ι) (Input ι))} {id : String} {fireAt : Time}
    (hle : fires entries cfg h id fireAt ≤ 1) {t t' : Turn (System ι) (Input ι)} (ht : t ∈ h)
    (ht' : t' ∈ h) (hstored : storedKey entries cfg t = some (cronUniqueKey id fireAt))
    (hstored' : storedKey entries cfg t' = some (cronUniqueKey id fireAt)) : t = t' := by
  rw [fires, List.countP_eq_length_filter] at hle
  have hmem : t ∈ h.filter fun t ↦ storedKey entries cfg t = some (cronUniqueKey id fireAt) :=
    List.mem_filter.2 ⟨ht, decide_eq_true hstored⟩
  have hmem' : t' ∈ h.filter fun t ↦ storedKey entries cfg t = some (cronUniqueKey id fireAt) :=
    List.mem_filter.2 ⟨ht', decide_eq_true hstored'⟩
  rcases hlist : h.filter fun t ↦ storedKey entries cfg t = some (cronUniqueKey id fireAt) with
    _ | ⟨a, _ | ⟨b, l⟩⟩
  · rw [hlist] at hmem
    cases hmem
  · rw [hlist] at hmem hmem'
    rw [List.mem_singleton.1 hmem, List.mem_singleton.1 hmem']
  · rw [hlist, List.length_cons, List.length_cons] at hle
    omega

/-- An `Enqueue` of a tick whose key has expired stores another job. -/
theorem stored_of_not_held (hvisible : Redis.Expires cfg.visible)
    {h : List (Turn (System ι) (Input ι))} {s : System ι} {c : Input ι}
    (hrun : (machine entries cfg).Run (Prompt entries cfg) h s) (hok : Admissible c) {id : String}
    {fireAt : Time} (hkey : enqueuedKey entries cfg s c = some (cronUniqueKey id fireAt))
    {t : Turn (System ι) (Input ι)} (ht : t ∈ h)
    (hstored : storedKey entries cfg t = some (cronUniqueKey id fireAt))
    (hpast : cfg.visible c.now (t.input.now + milliseconds cronUniqueTTL) = false) :
    storedKey entries cfg ⟨s, c⟩ = some (cronUniqueKey id fireAt) := by
  rcases tick_cases hok hkey with ⟨u, hu, -⟩ | ⟨-, hnew, -⟩
  · -- the key that is held would have been taken by a second job
    obtain ⟨hu, hseen⟩ := Option.filter_eq_some_iff.1 hu
    obtain ⟨t', ht', hstored', hexp⟩ :=
      stored_of_held (hrun.mono fun _ _ _ _ hok ↦ hok.admissible) id fireAt u hu
    obtain rfl := eq_of_fires_le_one (fires_le_one hvisible hrun id fireAt) ht ht' hstored hstored'
    rw [hexp, hpast] at hseen
    cases hseen
  · exact hnew

/-- **A cron tick yields at most one job** in every run that enqueues no tick after its key expired;
and the next `Enqueue` of a tick keeps it so exactly if the key is still held. Whatever the rule is
by which keys expire, as long as they stay gone. -/
theorem tick_fires_at_most_once (hvisible : Redis.Expires cfg.visible)
    {h : List (Turn (System ι) (Input ι))} {s : System ι}
    (hrun : (machine entries cfg).Run (Prompt entries cfg) h s) (id : String) (fireAt : Time) :
    fires entries cfg h id fireAt ≤ 1 ∧
    ∀ c, Admissible c → (∀ t ∈ h, t.input.now ≤ c.now) →
      enqueuedKey entries cfg s c = some (cronUniqueKey id fireAt) →
      (fires entries cfg (⟨s, c⟩ :: h) id fireAt ≤ 1 ↔ Held entries cfg h c.now id fireAt) := by
  refine ⟨fires_le_one hvisible hrun id fireAt,
    fun c hok hclock hkey ↦ ⟨fun hle ↦ ?_, fun hheld ↦ ?_⟩⟩
  · intro t ht hstored
    by_contra hpast
    have hnew := stored_of_not_held hvisible hrun hok hkey ht hstored (Bool.not_eq_true _ ▸ hpast)
    have hpos : 0 < fires entries cfg h id fireAt :=
      List.countP_pos_iff.2 ⟨t, ht, decide_eq_true hstored⟩
    rw [fires_cons, if_pos hnew] at hle
    omega
  · rw [fires_cons]
    split_ifs with hstored
    · rw [fires_eq_zero (not_stored_of_held hvisible hrun hok hclock hheld hstored)]
    · exact fires_le_one hvisible hrun id fireAt

/-- A scheduler fires a tick, and nothing else happens to it. -/
theorem tick_fires_at_most_once_fired :
    ∃ h s, (machine (fun _ : Unit ↦ everyMillisecond) .default).Run
        (Prompt (fun _ : Unit ↦ everyMillisecond) .default) h s ∧
      fires (fun _ : Unit ↦ everyMillisecond) .default h "e" millisecond ≤ 1 ∧
      fires (fun _ : Unit ↦ everyMillisecond) .default h "e" millisecond ≠ 0 := by
  have hrun : (machine (fun _ : Unit ↦ everyMillisecond) .default).Run
      (Prompt (fun _ : Unit ↦ everyMillisecond) .default) _ _ :=
    .step ⟨1, .act () (.enqueue 0 "a"), .answered⟩
      (.step ⟨1, .act () .read, .answered⟩
        (.step ⟨0, .act () (.seed "e" 0), .answered⟩ .start
          ⟨admissible_act _ _ _ _, by simp, fun _ _ h ↦ nomatch h⟩)
        ⟨admissible_act _ _ _ _, by simp, fun _ _ h ↦ nomatch h⟩)
      ⟨admissible_act _ _ _ _, by simp, fun id fireAt _ ↦ by
        intro t ht
        rcases List.mem_cons.1 ht with rfl | ht
        · exact fun h ↦ nomatch h
        · obtain rfl := List.mem_singleton.1 ht
          exact fun h ↦ nomatch h⟩
  exact ⟨_, _, hrun, (tick_fires_at_most_once Redis.expires_default hrun "e" millisecond).1,
    by decide +kernel⟩

/-- **A tick can fire twice.** One scheduler enqueues a tick and pauses before it claims it; five
minutes later the key is gone, another scheduler still reads the tick as due, and its `Enqueue`
returns nil as well. -/
theorem tick_fires_twice :
    ∃ h s, (machine (fun _ : Bool ↦ everyMillisecond) .default).Run (fun _ _ ↦ Admissible) h s ∧
      (∀ t ∈ h, (∀ op, t.input.step ≠ .other op) ∧ t.input.fate = .answered) ∧
      h.Pairwise (fun t t' ↦ t'.input.now ≤ t.input.now) ∧
      fires (fun _ : Bool ↦ everyMillisecond) .default h "e" millisecond = 2 := by
  have hrun : (machine (fun _ : Bool ↦ everyMillisecond) .default).Run (fun _ _ ↦ Admissible) _ _ :=
    .step ⟨300001, .act true (.enqueue 0 "b"), .answered⟩
      (.step ⟨300001, .act true .read, .answered⟩
        (.step ⟨1, .act false (.enqueue 0 "a"), .answered⟩
          (.step ⟨1, .act false .read, .answered⟩
            (.step ⟨0, .act false (.seed "e" 0), .answered⟩ .start (admissible_act _ _ _ _))
            (admissible_act _ _ _ _))
          (admissible_act _ _ _ _))
        (admissible_act _ _ _ _))
      (admissible_act _ _ _ _)
  exact ⟨_, _, hrun, by simp, by simp, by decide +kernel⟩

end

end TaskQueue.Scheduler
