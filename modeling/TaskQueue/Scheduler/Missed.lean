import Mathlib.Order.Interval.Finset.Nat
import TaskQueue.Cron.Upcoming
import TaskQueue.Redis.CronSet
import TaskQueue.Scheduler.Ticks
import TaskQueue.Transition.Cursor

/-!
# Ticks that were missed

A scheduler that was down, or slow, finds a schedule whose fire time is long past. It fires that one
tick and advances the schedule from **now**: the ticks in between are skipped, not replayed. With
several schedulers at work on one schedule, each with its own clock, what is skipped is a matter of
who wins the claim, so the promise has to be made for the run as a whole.

The fire time on record is a **cursor** (`cursor_next`): it is set once, to a fire time of the
schedule, and every claim that wins moves it to the first fire time after the tick and after the
clock of whoever claims (`isLeast_of_plan`). A job is only ever enqueued for a tick that was read
off the cursor when it was due (`read_of_stored`). So what a claim jumps over has no job, not before
and not after (`Machine.Run.not_between`).

Schedulers compute in UTC here, where `Next` always goes forward.
-/

namespace TaskQueue.Scheduler

open Redis (Store Config exec unixMilli)

/-! ### Times in milliseconds -/

theorem unixMilli_lt_of_lt {f n : Time} (hn : Cron.minute ∣ n) (hlt : f < n) :
    unixMilli f < unixMilli n := by
  obtain ⟨k, rfl⟩ := hn
  rw [unixMilli, unixMilli]
  have hwhole : Cron.minute * k = (60000 * k) * millisecond := by
    simp only [Cron.minute, millisecond]
    ring
  rw [hwhole] at hlt ⊢
  rw [Int.mul_ediv_cancel _ (by decide)]
  exact Int.ediv_lt_of_lt_mul (by decide) hlt

/-! ### What a scheduler is in the middle of -/

/-- The ticks that a scheduler has read and is not done with. -/
def Pc.ticks : Pc → List DueCronEntry
  | .idle => []
  | .firing due => due
  | .claiming d _ rest => d :: rest

/-- A scheduler works on what it has read. -/
theorem ticks_resume {es : Entries} {p : Pc} {reply : Option Reply} {a : Action}
    {d : DueCronEntry} (hd : d ∈ (resume es p reply a).ticks) :
    d ∈ p.ticks ∨ ∃ ds, a = .read ∧ p = .idle ∧ reply = some (.due ds) ∧ d ∈ ds := by
  cases a with
  | seed id wall => exact .inl hd
  | read =>
    simp only [resume] at hd
    split at hd
    · next ds => exact .inr ⟨ds, rfl, rfl, rfl, hd⟩
    · exact .inl hd
  | enqueue wall newID =>
    simp only [resume] at hd
    split at hd
    · cases hd
    · next d' rest =>
      split at hd
      · split_ifs at hd
        · exact .inl hd
        · exact .inl (List.mem_cons_of_mem _ hd)
      · exact .inl (List.mem_cons_of_mem _ hd)
    · exact .inl hd
  | claim =>
    simp only [resume] at hd
    split at hd
    · exact .inl (List.mem_cons_of_mem _ hd)
    · exact .inl hd
  | crash => cases hd

/-- **What a scheduler sends**, by what it is in the middle of. -/
theorem command_cases {es : Entries} {p : Pc} {a : Action} {op : Redis.Op}
    (hcmd : command es p a = some op) :
    (∃ id wall ce, a = .seed id wall ∧ es id = some ce ∧ ce.schedule wall ≠ zeroTime ∧
      op = .scheduleCronIfAbsent id (ce.schedule wall)) ∨
    a = .read ∧ p = .idle ∧ op = .dueCron cronBatch ∨
    (∃ wall newID d rest j next, a = .enqueue wall newID ∧ p = .firing (d :: rest) ∧
      plan es wall d = some (j, next) ∧ op = .enqueue newID wall (some j)) ∨
    ∃ d next rest, a = .claim ∧ p = .claiming d next rest ∧
      op = .claimCron d.id d.fireAt next := by
  cases a with
  | seed id wall =>
    obtain ⟨ce, hce, hseed⟩ := Option.bind_eq_some_iff.1 hcmd
    dsimp only at hseed
    split_ifs at hseed with hzero
    exact .inl ⟨id, wall, ce, rfl, hce, hzero, (Option.some.inj hseed).symm⟩
  | read =>
    simp only [command] at hcmd
    split at hcmd
    · exact .inr (.inl ⟨rfl, rfl, (Option.some.inj hcmd).symm⟩)
    · cases hcmd
  | enqueue wall newID =>
    simp only [command] at hcmd
    split at hcmd
    · next d rest =>
      obtain ⟨⟨j, next⟩, hplan, hop⟩ := Option.map_eq_some_iff.1 hcmd
      exact .inr (.inr (.inl ⟨wall, newID, d, rest, j, next, rfl, rfl, hplan, hop.symm⟩))
    · cases hcmd
  | claim =>
    simp only [command] at hcmd
    split at hcmd
    · next d next rest =>
      exact .inr (.inr (.inr ⟨d, next, rest, rfl, rfl, (Option.some.inj hcmd).symm⟩))
    · cases hcmd
  | crash => cases hcmd

/-- What a scheduler plans for a tick. -/
theorem plan_cases {es : Entries} {wall next : Time} {d : DueCronEntry} {j : Job}
    (hplan : plan es wall d = some (j, next)) :
    ∃ ce, es d.id = some ce ∧ j = tickJob ce d ∧ ce.schedule (max wall d.fireAt) = next ∧
      next ≠ zeroTime := by
  obtain ⟨ce, hce, hplan⟩ := Option.bind_eq_some_iff.1 hplan
  obtain ⟨next', hnext, heq⟩ := Option.map_eq_some_iff.1 hplan
  obtain ⟨rfl, rfl⟩ := Prod.mk.inj heq
  rw [nextFire, ← max_def_lt] at hnext
  split_ifs at hnext with hzero
  obtain rfl := Option.some.inj hnext
  exact ⟨ce, hce, rfl, rfl, hzero⟩

/-! ### The cursor -/

section

variable {ι : Type} [DecidableEq ι] {entries : ι → Entries} {cfg : Config} {id : String}
  {spec : Cron.Schedule} {h newer older : List (Turn (System ι) (Input ι))} {s : System ι}
  {c : Input ι} {turn : Turn (System ι) (Input ι)}

/-- Whoever knows the entry has it with the same cron expression. -/
def Agreed (entries : ι → Entries) (id : String) (spec : Cron.Schedule) : Prop :=
  ∀ i ce, entries i id = some ce → ce.schedule = spec.next

/-- What a run may do next: the server time does not go back, and the schedule is left to the
schedulers. -/
structure Tended (id : String) (h : List (Turn (System ι) (Input ι))) (_ : System ι)
    (c : Input ι) : Prop where
  admissible : Admissible c
  clock : ∀ t ∈ h, t.input.now ≤ c.now
  seeds : ∀ t, c.step ≠ .other (.scheduleCronIfAbsent id t)
  removals : c.step ≠ .other (.removeCron id)

/-- The fire time on record. -/
def cursor (id : String) (s : System ι) : Option ℤ := s.store.cron.lookup id

omit [DecidableEq ι] in
/-- **The fire time a tick is advanced to** is the first one after the tick and after the clock of
the scheduler. -/
theorem isLeast_of_plan (hagreed : Agreed entries id spec) (hfields : ¬ 0 < spec.every) {i : ι}
    {wall next f : Time} {j : Job} (hplan : plan (entries i) wall ⟨id, f⟩ = some (j, next)) :
    IsLeast (spec.upcoming (max wall f)) next := by
  obtain ⟨ce, hce, -, rfl, hzero⟩ := plan_cases hplan
  rw [hagreed i ce hce] at hzero ⊢
  exact Cron.Schedule.next_isLeast hfields hzero

omit [DecidableEq ι] in
/-- A `ClaimCron` that runs is that of a scheduler in the middle of its tick. -/
theorem claiming_of_claims (hok : Admissible turn.input) {f n : Time}
    (hclaim : Claims entries cfg turn id f n) :
    ∃ i rest, turn.before.pc i = .claiming ⟨id, f⟩ n rest := by
  obtain ⟨-, hsent, -⟩ := ran_eq_some hclaim
  rcases hstep : turn.input.step with ⟨i, a⟩ | op
  · rw [hstep] at hsent
    exact ⟨i, claiming_of_command hsent⟩
  · rw [hstep] at hsent
    obtain rfl := Option.some.inj hsent
    exact absurd hstep (hok.claims id f n)

/-- A claim that wins moves the cursor. -/
theorem cursor_of_claims {f n : Time} (hclaim : Claims entries cfg turn id f n) :
    cursor id turn.before = some (unixMilli f) ∧
      cursor id ((machine entries cfg).after turn) = some (unixMilli n) := by
  obtain ⟨-, -, hreply⟩ := ran_eq_some hclaim
  have hstore : ((machine entries cfg).after turn).store = _ := store_next hclaim
  rcases Redis.claimCron_cases cfg turn.before.store turn.input.now id f n with
    ⟨hlost, -⟩ | ⟨-, hf, hn⟩
  · exact absurd hreply hlost
  · refine ⟨hf, ?_⟩
    rw [cursor, hstore, hn, Table.lookup_insert_eq, if_pos rfl]

variable (entries cfg) in
/-- **What a step does to the cursor**: a scheduler sets it, or a claim that wins moves it. -/
theorem cursor_next (hok : Tended id h s c) :
    cursor id (next entries cfg s c) = cursor id s ∨
    (∃ i wall ce, entries i id = some ce ∧ ce.schedule wall ≠ zeroTime ∧ cursor id s = none ∧
      cursor id (next entries cfg s c) = some (unixMilli (ce.schedule wall))) ∨
    ∃ f n, Claims entries cfg ⟨s, c⟩ id f n ∧ cursor id s = some (unixMilli f) ∧
      cursor id (next entries cfg s c) = some (unixMilli n) := by
  simp only [cursor]
  rcases hran : ran entries cfg s c with - | ⟨op, r⟩
  · exact .inl (by simp only [next, hran])
  obtain ⟨-, hsent, hreply⟩ := ran_eq_some hran
  rw [store_next hran]
  rcases Redis.lookup_cron_exec cfg s.store ⟨c.now, op⟩ id with
    hsame | ⟨t, rfl, hnone, hset⟩ | ⟨f, n, rfl, hwon, hf, hn⟩ | rfl
  · exact .inl hsame
  · rcases hstep : c.step with ⟨i, a⟩ | op
    · rw [hstep] at hsent
      obtain ⟨id', wall, ce, -, hce, hzero, heq⟩ | ⟨-, -, heq⟩ |
        ⟨wall, newID, d, rest, j, next, -, -, -, heq⟩ | ⟨d, next, rest, -, -, heq⟩ :=
        command_cases hsent
      · obtain ⟨rfl, rfl⟩ := Redis.Op.scheduleCronIfAbsent.inj heq
        exact .inr (.inl ⟨i, wall, ce, hce, hzero, hnone, hset⟩)
      all_goals cases heq
    · rw [hstep] at hsent
      obtain rfl := Option.some.inj hsent
      exact absurd hstep (hok.seeds t)
  · rw [hwon] at hreply
    subst hreply
    exact .inr (.inr ⟨f, n, hran, hf, hn⟩)
  · rcases hstep : c.step with ⟨i, a⟩ | op
    · rw [hstep] at hsent
      obtain ⟨id', wall, ce, -, -, -, heq⟩ | ⟨-, -, heq⟩ |
        ⟨wall, newID, d, rest, j, next, -, -, -, heq⟩ | ⟨d, next, rest, -, -, heq⟩ :=
        command_cases hsent
      all_goals cases heq
    · rw [hstep] at hsent
      obtain rfl := Option.some.inj hsent
      exact absurd hstep hok.removals

variable (entries cfg s c) in
/-- Where a scheduler gets to in a step. -/
theorem pc_next (i : ι) :
    (next entries cfg s c).pc i = s.pc i ∨ ∃ a, c.step = .act i a ∧
      (next entries cfg s c).pc i = resume (entries i) (s.pc i) (told entries cfg s c) a := by
  rcases hstep : c.step with ⟨i₀, a⟩ | op
  · simp only [next, hstep]
    by_cases hi : i = i₀
    · subst hi
      exact .inr ⟨a, rfl, Function.update_self _ _ _⟩
    · exact .inl (Function.update_of_ne hi _ _)
  · exact .inl (by simp only [next, hstep])

/-- A scheduler that is about to advance a tick has planned so when it enqueued the job of it. -/
theorem planned_of_run {ok : List (Turn (System ι) (Input ι)) → System ι → Input ι → Prop}
    (hrun : (machine entries cfg).Run ok h s) {i : ι} {d : DueCronEntry} {n : Time}
    {rest : List DueCronEntry} (hpc : s.pc i = .claiming d n rest) :
    ∃ t ∈ h, ∃ wall newID j, t.input.step = .act i (.enqueue wall newID) ∧
      t.before.pc i = .firing (d :: rest) ∧ plan (entries i) wall d = some (j, n) := by
  induction hrun with
  | start => cases hpc
  | @step h s c _ _ ih =>
    have hold (hpc : s.pc i = .claiming d n rest) : ∃ t ∈ ⟨s, c⟩ :: h, ∃ wall newID j,
        t.input.step = .act i (.enqueue wall newID) ∧ t.before.pc i = .firing (d :: rest) ∧
        plan (entries i) wall d = some (j, n) := by
      obtain ⟨t, ht, hplanned⟩ := ih hpc
      exact ⟨t, List.mem_cons_of_mem _ ht, hplanned⟩
    rcases pc_next entries cfg s c i with hsame | ⟨a, ha, heq⟩
    · exact hold (hsame.symm.trans hpc)
    · rcases resume_eq_claiming (heq.symm.trans hpc) with
        hpc | ⟨wall, newID, j, rfl, hfiring, hplan, -⟩
      · exact hold hpc
      · exact ⟨⟨s, c⟩, List.mem_cons_self, wall, newID, j, ha, hfiring, hplan⟩

/-- What a claim that wins does, as its scheduler planned when it enqueued the job of the tick. -/
theorem planned_of_claims (hagreed : Agreed entries id spec) (hfields : ¬ 0 < spec.every)
    (hrun : (machine entries cfg).Run (Tended id) older turn.before)
    (hok : Tended id older turn.before turn.input) {f n : Time}
    (hclaim : Claims entries cfg turn id f n) :
    ∃ i rest, turn.before.pc i = .claiming ⟨id, f⟩ n rest ∧ ∃ t ∈ older, ∃ wall newID,
      t.input.step = .act i (.enqueue wall newID) ∧ t.before.pc i = .firing (⟨id, f⟩ :: rest) ∧
      IsLeast (spec.upcoming (max wall f)) n := by
  obtain ⟨i, rest, hpc⟩ := claiming_of_claims hok.admissible hclaim
  obtain ⟨t, ht, wall, newID, j, hstep, hfiring, hplan⟩ := planned_of_run hrun hpc
  exact ⟨i, rest, hpc, t, ht, wall, newID, hstep, hfiring,
    isLeast_of_plan hagreed hfields hplan⟩

/-- The cursor only moves forward. -/
theorem forward_next (hagreed : Agreed entries id spec) (hfields : ¬ 0 < spec.every)
    (hrun : (machine entries cfg).Run (Tended id) h s) (hok : Tended id h s c) :
    Machine.Forward (cursor id) s (next entries cfg s c) := by
  intro x hx
  rcases cursor_next entries cfg hok with
    hsame | ⟨i, wall, ce, -, -, hnone, -⟩ | ⟨f, n, hclaim, hf, hn⟩
  · exact ⟨x, hsame.trans hx, le_rfl⟩
  · rw [hnone] at hx
    cases hx
  · obtain rfl := Option.some.inj (hf.symm.trans hx)
    obtain ⟨i, rest, -, t, -, wall, newID, -, -, hleast⟩ :=
      planned_of_claims hagreed hfields hrun hok hclaim
    have hlt : f < n := (le_max_right wall f).trans_lt hleast.1.2.1
    exact ⟨_, hn, (unixMilli_lt_of_lt hleast.1.1 hlt).le⟩

/-- The cursor is always at a fire time of the schedule. -/
theorem fires_of_run (hagreed : Agreed entries id spec) (hfields : ¬ 0 < spec.every)
    (hrun : (machine entries cfg).Run (Tended id) h s) : ∀ x, cursor id s = some x →
      ∃ m, unixMilli m = x ∧ Cron.minute ∣ m ∧ spec.Fires m := by
  refine hrun.invariant (P := fun _ s ↦ ∀ x, cursor id s = some x →
    ∃ m, unixMilli m = x ∧ Cron.minute ∣ m ∧ spec.Fires m) ?_ ?_
  · intro x hx
    cases hx
  intro h s c hrun ih hok x hx
  rcases cursor_next entries cfg hok with
    hsame | ⟨i, wall, ce, hce, hzero, -, hset⟩ | ⟨f, n, hclaim, -, hn⟩
  · exact ih x (hsame.symm.trans hx)
  · rw [hagreed i ce hce] at hzero hset
    obtain ⟨hdvd, -, hfires⟩ := (Cron.Schedule.next_isLeast hfields hzero).1
    exact ⟨_, Option.some.inj (hset.symm.trans hx), hdvd, hfires⟩
  · obtain ⟨i, rest, -, t, -, wall, newID, -, -, ⟨hdvd, -, hfires⟩, -⟩ :=
      planned_of_claims hagreed hfields hrun hok hclaim
    exact ⟨n, Option.some.inj (hn.symm.trans hx), hdvd, hfires⟩

/-! ### What is enqueued -/

omit [DecidableEq ι] in
/-- The entries a scheduler is told of are those on record that are due. -/
theorem due_of_told {i : ι} {ds : List DueCronEntry} (hstep : c.step = .act i .read)
    (hpc : s.pc i = .idle) (htold : told entries cfg s c = some (.due ds)) :
    ds = Redis.dueCron (s.store.live cfg.visible c.now) c.now cronBatch := by
  rw [told] at htold
  split_ifs at htold
  obtain ⟨⟨op, r⟩, hran, rfl⟩ := Option.map_eq_some_iff.1 htold
  obtain ⟨-, hsent, hreply⟩ := ran_eq_some hran
  rw [hstep, sent, hpc] at hsent
  obtain rfl := Option.some.inj hsent
  exact (Reply.due.inj hreply).symm

/-- **What a scheduler works on was read off the cursor** when it was due. -/
theorem read_of_run {ok : List (Turn (System ι) (Input ι)) → System ι → Input ι → Prop}
    (hrun : (machine entries cfg).Run ok h s) {i : ι} {d : DueCronEntry}
    (hd : d ∈ (s.pc i).ticks) :
    ∃ t ∈ h, cursor d.id t.before = some (unixMilli d.fireAt) ∧
      unixMilli d.fireAt ≤ t.input.now := by
  induction hrun with
  | start => cases hd
  | @step h s c _ _ ih =>
    have hold (hd : d ∈ (s.pc i).ticks) : ∃ t ∈ ⟨s, c⟩ :: h,
        cursor d.id t.before = some (unixMilli d.fireAt) ∧ unixMilli d.fireAt ≤ t.input.now := by
      obtain ⟨t, ht, hread⟩ := ih hd
      exact ⟨t, List.mem_cons_of_mem _ ht, hread⟩
    rcases pc_next entries cfg s c i with hsame | ⟨a, ha, heq⟩
    · exact hold (hsame ▸ hd)
    · rw [show ((machine entries cfg).next s c).pc i = _ from heq] at hd
      rcases ticks_resume hd with hd | ⟨ds, rfl, hpc, htold, hd⟩
      · exact hold hd
      · rw [due_of_told ha hpc htold] at hd
        exact ⟨⟨s, c⟩, List.mem_cons_self, Redis.mem_dueCron hd⟩

/-- A job of a tick is that of a tick some scheduler is in the middle of. -/
theorem read_of_stored {ok : List (Turn (System ι) (Input ι)) → System ι → Input ι → Prop}
    (hrun : (machine entries cfg).Run ok older turn.before) (hok : Admissible turn.input) {m : Time}
    (hstored : storedKey entries cfg turn = some (cronUniqueKey id m)) :
    ∃ t ∈ older, cursor id t.before = some (unixMilli m) ∧ unixMilli m ≤ t.input.now := by
  obtain ⟨hkey, -⟩ := enqueuedKey_of_storedKey hstored
  unfold enqueuedKey at hkey
  split at hkey
  · next newID wall j r hran =>
    have hkey : j.uniqueKey = cronUniqueKey id m := Option.some.inj hkey
    obtain ⟨-, hsent, -⟩ := ran_eq_some hran
    rcases hstep : turn.input.step with ⟨i, a⟩ | op
    · rw [hstep] at hsent
      obtain ⟨id', wall, ce, -, -, -, heq⟩ | ⟨-, -, heq⟩ |
        ⟨wall', newID', d, rest, j', next, -, hpc, hplan, heq⟩ | ⟨d, next, rest, -, -, heq⟩ :=
        command_cases hsent
      case inr.inr.inl =>
        obtain ⟨-, -, hj⟩ := Redis.Op.enqueue.inj heq
        obtain rfl := Option.some.inj hj
        obtain ⟨ce, -, rfl, -, -⟩ := plan_cases hplan
        obtain ⟨hid, hm⟩ := cronUniqueKey_inj.1 hkey
        rw [← hid, ← hm]
        refine read_of_run hrun (i := i) ?_
        rw [hpc]
        exact List.mem_cons_self
      all_goals cases heq
    · rw [hstep] at hsent
      obtain rfl := Option.some.inj hsent
      exact absurd hkey (hok.producers newID wall j hstep id m)
  · cases hkey

/-- **Missed ticks are skipped.** However many schedulers tend a schedule, with clocks of their own,
with lost replies and crashes:

* a job is enqueued only for a fire time of the schedule, and not before it is due;
* a claim that wins is that of a scheduler which enqueued the job of the tick earlier in the run; it
  advances the schedule to the first fire time after the tick and after what the clock of that
  scheduler said then;
* no fire time that is jumped over that way ever has a job, not earlier in the run, not later, and
  not from another scheduler. -/
theorem missed_ticks_skipped (hagreed : Agreed entries id spec) (hfields : ¬ 0 < spec.every)
    (hrun : (machine entries cfg).Run (Tended id) h s) :
    (∀ t ∈ h, ∀ m, storedKey entries cfg t = some (cronUniqueKey id m) →
      unixMilli m ≤ t.input.now ∧
      ∃ tick, unixMilli tick = unixMilli m ∧ Cron.minute ∣ tick ∧ spec.Fires tick) ∧
    ∀ newer turn older f n, h = newer ++ turn :: older → Claims entries cfg turn id f n →
      (∃ i rest, turn.before.pc i = .claiming ⟨id, f⟩ n rest ∧ ∃ t ∈ older, ∃ wall newID,
        t.input.step = .act i (.enqueue wall newID) ∧ t.before.pc i = .firing (⟨id, f⟩ :: rest) ∧
        IsLeast (spec.upcoming (max wall f)) n) ∧
      ∀ t ∈ h, ∀ m, storedKey entries cfg t = some (cronUniqueKey id m) →
        unixMilli m ≤ unixMilli f ∨ unixMilli n ≤ unixMilli m := by
  have hread : ∀ t ∈ h, ∀ m, storedKey entries cfg t = some (cronUniqueKey id m) →
      ∃ t' ∈ h, t'.input.now ≤ t.input.now ∧ cursor id t'.before = some (unixMilli m) ∧
        unixMilli m ≤ t'.input.now := by
    intro t ht m hstored
    obtain ⟨newer, older, rfl⟩ := List.append_of_mem ht
    obtain ⟨hbefore, hok⟩ := hrun.of_append
    obtain ⟨t', ht', hcursor, hdue⟩ := read_of_stored hbefore hok.admissible hstored
    exact ⟨t', by simp [ht'], hok.clock t' ht', hcursor, hdue⟩
  refine ⟨fun t ht m hstored ↦ ?_, fun newer turn older f n heq hclaim ↦ ⟨?_, ?_⟩⟩
  · obtain ⟨t', ht', hclock, hcursor, hdue⟩ := hread t ht m hstored
    obtain ⟨older, hbefore, -⟩ := hrun.of_mem ht'
    exact ⟨hdue.trans hclock, fires_of_run hagreed hfields hbefore _ hcursor⟩
  · subst heq
    obtain ⟨hbefore, hok⟩ := hrun.of_append
    exact planned_of_claims hagreed hfields hbefore hok hclaim
  · intro t ht m hstored
    obtain ⟨t', ht', -, hcursor, -⟩ := hread t ht m hstored
    -- the cursor is at the tick before the claim, and at the next one after it
    obtain ⟨hf, hn⟩ := cursor_of_claims hclaim
    have hturn : turn ∈ h := by simp [heq]
    exact hrun.not_between (fun _ _ _ ↦ forward_next hagreed hfields) hturn ht' hf hn hcursor

omit [DecidableEq ι] in
theorem tended_act {now : ℤ} (hclock : ∀ t ∈ h, t.input.now ≤ now) (i : ι) (a : Action)
    (fate : Fate) : Tended id h s ⟨now, .act i a, fate⟩ where
  admissible := admissible_act now i a fate
  clock := hclock
  seeds _ heq := by cases heq
  removals heq := by cases heq

end

/-- "* * * * *" -/
def everyMinute : Cron.Schedule where
  minute := 0xFFFFFFFFFFFFFFF
  hour := 0xFFFFFF
  dom := 0xFFFFFFFE
  month := 0x1FFE
  dow := 0x7F
  domStar := true
  dowStar := true
  every := 0

theorem everyMinute_fires (m : Time) : everyMinute.Fires m := by
  obtain ⟨hmonth, hmonth', -⟩ := Calendar.valid_date (m / Cron.day + Cron.Location.unixDay)
  have hfield {r u k : ℤ} (hu : 0 < u) (hr : 0 ≤ r) (hrk : r < k * u) : 0 ≤ r / u ∧ r / u < k :=
    ⟨Int.ediv_nonneg hr hu.le, Int.ediv_lt_of_lt_mul hu hrk⟩
  have hhour := hfield (u := hour) (k := 24) (by decide)
    (Int.emod_nonneg m (by decide : Cron.day ≠ 0)) (Int.emod_lt_of_pos m (by decide))
  have hminute := hfield (u := Cron.minute) (k := 60) (by decide)
    (Int.emod_nonneg (m % Cron.day) (by decide : hour ≠ 0)) (Int.emod_lt_of_pos _ (by decide))
  -- all the bits of a mask, by the values its field can have
  have hbit {mask : BitVec 64} {lo hi v : ℤ} (hpos : 0 ≤ lo) (hmask : ∀ k ∈
      Finset.Ico lo.toNat hi.toNat, mask.getLsbD k = true) (hlo : lo ≤ v) (hv : v < hi) :
      mask.getLsbD v.toNat = true := hmask _ (Finset.mem_Ico.2 ⟨by omega, by omega⟩)
  exact ⟨hbit (by decide : (0 : ℤ) ≤ 1) (by decide) hmonth (Int.lt_add_one_of_le hmonth'), trivial,
    hbit le_rfl (by decide) hhour.1 hhour.2,
    hbit le_rfl (by decide) hminute.1 hminute.2⟩

/-- The entry under the ID `e`, which fires every minute here. -/
def everyMinuteEntries : Entries := fun id ↦
  (everyMillisecond id).map fun ce ↦ { ce with schedule := Cron.Schedule.startMinute }

theorem agreed_everyMinute : Agreed (fun _ : Bool ↦ everyMinuteEntries) "e" everyMinute := by
  intro i ce hce
  obtain ⟨ce', -, rfl⟩ := Option.map_eq_some_iff.1 hce
  funext t
  exact (Cron.Schedule.next_eq_startMinute (by decide) (everyMinute_fires _)).symm

/-- Two schedulers come back after three minutes and find the tick of the first minute. One of them
fires it and goes on with the fourth minute; there is no job of the second one. -/
theorem missed_ticks_skipped_outage :
    ∃ turn h s, (machine (fun _ : Bool ↦ everyMinuteEntries) .default).Run (Tended "e")
        (turn :: h) s ∧
      Claims (fun _ : Bool ↦ everyMinuteEntries) .default turn "e" Cron.minute (4 * Cron.minute) ∧
      ∀ t ∈ turn :: h, storedKey (fun _ : Bool ↦ everyMinuteEntries) .default t ≠
        some (cronUniqueKey "e" (2 * Cron.minute)) := by
  have hrun : (machine (fun _ : Bool ↦ everyMinuteEntries) .default).Run (Tended "e") _ _ :=
    .step ⟨185000, .act true .claim, .answered⟩
      (.step ⟨185000, .act true (.enqueue (185 * Cron.second) "a"), .answered⟩
        (.step ⟨185000, .act false .read, .answered⟩
          (.step ⟨185000, .act true .read, .answered⟩
            (.step ⟨0, .act false (.seed "e" 0), .answered⟩ .start (tended_act (by simp) _ _ _))
            (tended_act (by simp) _ _ _))
          (tended_act (by simp) _ _ _))
        (tended_act (by simp) _ _ _))
      (tended_act (by simp) _ _ _)
  obtain ⟨-, hclaims⟩ := missed_ticks_skipped agreed_everyMinute (by decide) hrun
  obtain ⟨-, hskip⟩ := hclaims [] _ _ Cron.minute (4 * Cron.minute) rfl (by rfl)
  refine ⟨_, _, _, hrun, by rfl, fun t ht hstored ↦ ?_⟩
  rcases hskip t ht _ hstored with hle | hle
  · exact absurd hle (by decide)
  · exact absurd hle (by decide)

end TaskQueue.Scheduler
