import TaskQueue.Cron.Schedule
import TaskQueue.Memory.Services
import TaskQueue.Scheduler.Ticks

/-!
# Cron schedulers over the in-memory broker

The schedulers of `TaskQueue.Scheduler.Model` against the cron store of the in-memory broker. What a
scheduler does between two commands and where it can be interrupted is the same; a command is a call
of the broker and its reply always arrives.

Two schedulers may read the same entry as due and work on it at the same time, with clocks that
disagree by any amount and with **different schedules** for the same ID. Still each tick has one
winner, because a stored fire time only moves forward:

* an entry is seeded only if there is none;
* `ClaimCron` replaces the fire time it names and no other;
* and the time it writes is strictly later, because a scheduler advances from the later of its clock
  and the tick, and a schedule fires strictly after the time it is asked for (`Schedule.lt_next`).
-/

namespace TaskQueue.Scheduler.InMemory

open Memory (Broker exec)

/-- A compiled entry with a parsed cron specification. -/
structure CronEntry extends CompiledEntry where
  spec : Cron.Schedule
  schedule_eq : schedule = spec.next

/-- What each scheduler is configured with, by ID. -/
abbrev Configured (ι : Type) := ι → String → Option CronEntry

/-- The entries each scheduler knows. -/
def Configured.entries {ι : Type} (conf : Configured ι) : ι → Entries :=
  fun i id ↦ (conf i id).map CronEntry.toCompiledEntry

/-- The broker, and what each scheduler is in the middle of. -/
structure System (ι : Type) where
  broker : Broker
  pc : ι → Pc

/-- One step of the system: of a scheduler, or a call of anybody else. -/
inductive Step (ι : Type)
  | act (i : ι) (a : Action)
  | other (op : Memory.Op)

/-- A step, at the time the broker's clock reads. -/
structure Input (ι : Type) where
  now : Time
  step : Step ι

/-- The commands of schedulers as calls of the in-memory broker. -/
def callOf : Redis.Op → Option Memory.Op
  | .scheduleCronIfAbsent id fireAt => some (.scheduleCronIfAbsent id fireAt)
  | .dueCron limit => some (.dueCron limit)
  | .enqueue newID _ j => some (.enqueue newID j)
  | .claimCron id firedAt nextAt => some (.claimCron id firedAt nextAt)
  | _ => none

section

variable {ι : Type} (conf : Configured ι)

/-- The call a step makes, if it makes one. -/
def sent (s : System ι) : Step ι → Option Memory.Op
  | .act i a => (command (conf.entries i) (s.pc i) a).bind callOf
  | .other op => some op

/-- The reply to the call of a step. -/
def told (s : System ι) (c : Input ι) : Option Reply :=
  (sent conf s c.step).map fun op ↦ (exec s.broker ⟨c.now, op⟩).1

variable [DecidableEq ι]

/-- The system after a step. -/
def next (s : System ι) (c : Input ι) : System ι where
  broker :=
    match sent conf s c.step with
    | some op => (exec s.broker ⟨c.now, op⟩).2
    | none => s.broker
  pc :=
    match c.step with
    | .act i a =>
      Function.update s.pc i (resume (conf.entries i) (s.pc i) (told conf s c) a)
    | .other _ => s.pc

/-- The schedulers and their broker. -/
def machine : Machine (System ι) (Input ι) where
  init := ⟨Memory.new, fun _ ↦ .idle⟩
  next := next conf

end

/-- What a step may not be: a `RemoveCron`, or a `ClaimCron` of anybody but a scheduler. -/
structure Undisturbed {ι : Type} (c : Input ι) : Prop where
  removals : ∀ id, c.step ≠ .other (.removeCron id)
  claims : ∀ id f f', c.step ≠ .other (.claimCron id f f')

section

variable {ι : Type} (conf : Configured ι)

/-- The turn was a `ClaimCron` of the tick `f` of entry `id`. -/
def claims (t : Turn (System ι) (Input ι)) (id : String) (f : Time) : Bool :=
  match sent conf t.before t.input.step with
  | some (.claimCron i f₀ _) => decide (i = id) && decide (f₀ = f)
  | _ => false

/-- And it won the tick. -/
def wins (t : Turn (System ι) (Input ι)) (id : String) (f : Time) : Bool :=
  match told conf t.before t.input with
  | some (.won true) => claims conf t id f
  | _ => false

end

variable {ι : Type} {conf : Configured ι} {s : System ι} {c : Input ι} {id : String} {f : Time}
  {t : Turn (System ι) (Input ι)} {h : List (Turn (System ι) (Input ι))}

/-! ### Fire times -/

/-- A tick is advanced to a strictly later time. -/
theorem lt_of_plan {i : ι} {wall fireAt : Time} {d : DueCronEntry} {j : Job}
    (hplan : plan (conf.entries i) wall d = some (j, fireAt)) : d.fireAt < fireAt := by
  obtain ⟨ce, hce, hplan⟩ := Option.bind_eq_some_iff.1 hplan
  obtain ⟨next, hnext, heq⟩ := Option.map_eq_some_iff.1 hplan
  obtain ⟨-, rfl⟩ := Prod.mk.inj heq
  obtain ⟨e, -, rfl⟩ := Option.map_eq_some_iff.1 hce
  rw [nextFire] at hnext
  split_ifs at hnext with hwall hzero hzero
  · obtain rfl := Option.some.inj hnext
    rw [e.schedule_eq] at hzero ⊢
    exact Cron.Schedule.lt_next hzero
  · obtain rfl := Option.some.inj hnext
    rw [e.schedule_eq] at hzero ⊢
    exact (not_lt.1 hwall).trans_lt (Cron.Schedule.lt_next hzero)

/-- Every scheduler that is about to claim a tick advances it. -/
def Advancing (s : System ι) : Prop :=
  ∀ i d next rest, s.pc i = .claiming d next rest → d.fireAt < next

/-- A `ClaimCron` of a scheduler is about the tick it is in the middle of. -/
theorem lt_of_sent (hadv : Advancing s) (hok : Undisturbed c) {f' : Time}
    (hsent : sent conf s c.step = some (.claimCron id f f')) : f < f' := by
  obtain ⟨now, step⟩ := c
  cases step with
  | act i a =>
    obtain ⟨op, hcmd, hop⟩ := Option.bind_eq_some_iff.1 hsent
    cases op with
    | claimCron id' f₀ f₀' =>
      cases hop
      obtain ⟨rest, hpc⟩ := claiming_of_command hcmd
      exact hadv i _ _ _ hpc
    | _ => cases hop
  | other op =>
    obtain rfl := Option.some.inj hsent
    exact absurd rfl (hok.claims id f f')

theorem claims_eq_true : claims conf t id f = true ↔
    ∃ f', sent conf t.before t.input.step = some (.claimCron id f f') := by
  unfold claims
  split
  · next i f₀ f' hsent =>
    rw [Bool.and_eq_true_iff, decide_eq_true_iff, decide_eq_true_iff, hsent]
    constructor
    · rintro ⟨rfl, rfl⟩
      exact ⟨f', rfl⟩
    · rintro ⟨f'', heq⟩
      cases heq
      exact ⟨rfl, rfl⟩
  · next hno =>
    refine iff_of_false (by simp) ?_
    rintro ⟨f', hsent⟩
    exact hno _ _ _ hsent

theorem wins_eq_true : wins conf t id f = true ↔
    told conf t.before t.input = some (.won true) ∧ claims conf t id f = true := by
  unfold wins
  split
  · next htold => simp [htold]
  · next hno => simpa using fun htold ↦ absurd htold hno

variable [DecidableEq ι]

theorem advancing_next (hadv : Advancing s) (c : Input ι) : Advancing (next conf s c) := by
  intro i d fireAt rest hpc
  obtain ⟨now, step⟩ := c
  cases step with
  | act k a =>
    by_cases hk : i = k
    · subst hk
      rw [show (next conf s ⟨now, .act i a⟩).pc i = resume (conf.entries i) (s.pc i)
        (told conf s ⟨now, .act i a⟩) a from Function.update_self ..] at hpc
      rcases resume_eq_claiming hpc with hpc | ⟨wall, newID, j, -, -, hplan, -⟩
      · exact hadv i d fireAt rest hpc
      · exact lt_of_plan hplan
    · rw [show (next conf s ⟨now, .act k a⟩).pc i = s.pc i from Function.update_of_ne hk ..] at hpc
      exact hadv i d fireAt rest hpc
  | other op => exact hadv i d fireAt rest hpc

/-- **A stored fire time does not go back** in a step. -/
theorem le_of_step (hadv : Advancing s) (hok : Undisturbed c)
    (hfire : s.broker.cron.lookup id = some f) :
    ∃ f', (next conf s c).broker.cron.lookup id = some f' ∧ f ≤ f' := by
  rcases hsent : sent conf s c.step with - | op
  · exact ⟨f, by simpa [next, hsent] using hfire, le_rfl⟩
  · have hnext : (next conf s c).broker = (exec s.broker ⟨c.now, op⟩).2 := by simp [next, hsent]
    rw [hnext]
    rcases Memory.lookup_cron_exec s.broker ⟨c.now, op⟩ id with
      hsame | hnone | ⟨f₀, f', rfl, hf₀, hf'⟩ | rfl
    · exact ⟨f, hsame.trans hfire, le_rfl⟩
    · rw [hfire] at hnone
      cases hnone
    · rw [hfire] at hf₀
      obtain rfl := Option.some.inj hf₀
      exact ⟨f', hf', (lt_of_sent hadv hok hsent).le⟩
    · -- nobody removes entries
      obtain ⟨now, step⟩ := c
      cases step with
      | act i a =>
        obtain ⟨op, -, hop⟩ := Option.bind_eq_some_iff.1 hsent
        cases op <;> cases hop
      | other op =>
        obtain rfl := Option.some.inj hsent
        exact absurd rfl (hok.removals id)

/-- A `ClaimCron` that wins moves the entry strictly forward. -/
theorem lt_of_won (hadv : Advancing s) (hok : Undisturbed c) {f' : Time}
    (hsent : sent conf s c.step = some (.claimCron id f f'))
    (htold : told conf s c = some (.won true)) :
    s.broker.cron.lookup id = some f ∧ (next conf s c).broker.cron.lookup id = some f' ∧
      f < f' := by
  have hwon : (exec s.broker ⟨c.now, .claimCron id f f'⟩).1 = .won true := by
    simpa [told, hsent] using htold
  obtain ⟨hfire, hadvanced⟩ := Memory.claimCron_won rfl hwon
  refine ⟨hfire, ?_, lt_of_sent hadv hok hsent⟩
  rw [show (next conf s c).broker = (exec s.broker ⟨c.now, .claimCron id f f'⟩).2 by
    simp [next, hsent]]
  exact hadvanced

/-! ### Runs -/

/-- The runs of the schedulers. -/
abbrev Run (conf : Configured ι) (h : List (Turn (System ι) (Input ι))) (s : System ι) : Prop :=
  (machine conf).Run (fun _ _ c ↦ Undisturbed c) h s

theorem advancing_of_run (hrun : Run conf h s) : Advancing s := by
  refine Machine.Run.invariant (P := fun _ s ↦ Advancing s) ?_ ?_ hrun
  · intro i d next rest hpc
    cases hpc
  · intro h s c _ hadv _
    exact advancing_next hadv c

/-- A stored fire time does not go back over a run. -/
theorem le_of_run (hrun : Run conf h s) : ∀ t ∈ h, ∀ id f, t.before.broker.cron.lookup id = some f →
    ∃ f', s.broker.cron.lookup id = some f' ∧ f ≤ f' := by
  refine Machine.Run.invariant (P := fun h s ↦ ∀ t ∈ h, ∀ id f,
    t.before.broker.cron.lookup id = some f →
      ∃ f', s.broker.cron.lookup id = some f' ∧ f ≤ f') (by simp) ?_ hrun
  intro h s c hrun hP hok t ht id f hfire
  have hadv := advancing_of_run hrun
  rcases List.mem_cons.1 ht with rfl | ht
  · exact le_of_step hadv hok hfire
  · obtain ⟨f₁, hf₁, hle₁⟩ := hP t ht id f hfire
    obtain ⟨f₂, hf₂, hle₂⟩ := le_of_step hadv hok hf₁
    exact ⟨f₂, hf₂, hle₁.trans hle₂⟩

/-- A tick is won at most once, and once it is won the entry is past it. -/
theorem wins_of_run (hrun : Run conf h s) (id : String) (f : Time) :
    h.countP (wins conf · id f) = 0 ∨ h.countP (wins conf · id f) = 1 ∧
      ∃ f', s.broker.cron.lookup id = some f' ∧ f < f' := by
  refine Machine.Run.invariant (P := fun h s ↦ h.countP (wins conf · id f) = 0 ∨
    h.countP (wins conf · id f) = 1 ∧
      ∃ f', s.broker.cron.lookup id = some f' ∧ f < f') (.inl rfl) ?_ hrun
  intro h s c hrun hP hok
  have hadv := advancing_of_run hrun
  rw [List.countP_cons]
  rcases hwins : wins conf ⟨s, c⟩ id f with - | -
  · simp only [Bool.false_eq_true, if_false, add_zero]
    refine hP.imp_right fun ⟨hone, f₁, hf₁, hlt⟩ ↦ ⟨hone, ?_⟩
    have hle : ∃ f₂, (next conf s c).broker.cron.lookup id = some f₂ ∧ f₁ ≤ f₂ :=
      le_of_step hadv hok hf₁
    obtain ⟨f₂, hf₂, hle⟩ := hle
    exact ⟨f₂, hf₂, hlt.trans_le hle⟩
  · obtain ⟨htold, hclaims⟩ := wins_eq_true.1 hwins
    obtain ⟨f', hsent⟩ := claims_eq_true.1 hclaims
    obtain ⟨hfire, hadvanced, hlt⟩ := lt_of_won hadv hok hsent htold
    rcases hP with hzero | ⟨-, f₁, hf₁, hlt₁⟩
    · exact .inr ⟨by simp [hzero], f', hadvanced, hlt⟩
    · -- the entry was past the tick already
      rw [show s.broker.cron.lookup id = some f from hfire] at hf₁
      rw [Option.some.inj hf₁] at hlt₁
      exact absurd hlt₁ (lt_irrefl _)

/-- **Each tick has one winner, and schedules only move forward.** In every run of any schedulers,
an entry's stored fire time never decreases, a `ClaimCron` that wins moves it strictly forward from
the tick it names to the time it names, and every tick of every entry is won at most once. -/
theorem one_winner_per_tick (conf : Configured ι)
    (hrun : (machine conf).Run (fun _ _ c ↦ Undisturbed c) h s) :
    (∀ t ∈ h, ∀ id f, t.before.broker.cron.lookup id = some f →
      ∃ f', s.broker.cron.lookup id = some f' ∧ f ≤ f') ∧
    (∀ t ∈ h, ∀ id f f', sent conf t.before t.input.step = some (.claimCron id f f') →
      told conf t.before t.input = some (.won true) →
      t.before.broker.cron.lookup id = some f ∧
        ((machine conf).after t).broker.cron.lookup id = some f' ∧ f < f') ∧
    ∀ id f, h.countP (wins conf · id f) ≤ 1 := by
  refine ⟨le_of_run hrun, fun t ht id f f' hsent htold ↦ ?_, fun id f ↦ ?_⟩
  · obtain ⟨older, hbefore, hok⟩ := hrun.of_mem ht
    exact lt_of_won (advancing_of_run hbefore) hok hsent htold
  · rcases wins_of_run hrun id f with hzero | ⟨hone, -⟩
    · exact hzero.le.trans zero_le_one
    · exact hone.le

/-- A configuration with one entry that fires every `d`. -/
def everyEntry (d : Duration) : CronEntry where
  queue := "reports"
  type := "daily"
  payload := []
  maxAttempts := 3
  spec := ⟨0, 0, 0, 0, 0, false, false, d⟩
  schedule := Cron.Schedule.next ⟨0, 0, 0, 0, 0, false, false, d⟩
  schedule_eq := rfl
  queue_ne := by decide
  type_ne := by decide

/-- Two schedulers with different periods for one entry, and clocks that disagree, both get to
`ClaimCron` for the tick at 5; one of them wins it. -/
theorem one_winner_per_tick_raced : ∃ (conf : Configured Bool)
    (h : List (Turn (System Bool) (Input Bool))) (s : System Bool),
      (machine conf).Run (fun _ _ c ↦ Undisturbed c) h s ∧
      h.map (claims conf · "e" 5) = [true, true, false, false, false, false, false] ∧
      h.map (wins conf · "e" 5) = [false, true, false, false, false, false, false] ∧
      h.countP (wins conf · "e" 5) ≤ 1 ∧ s.broker.cron.lookup "e" = some 107 := by
  let conf : Configured Bool := fun i id ↦
    if id = "e" then some (everyEntry (if i then 7 else 5)) else none
  have hact : ∀ (now : Time) (i : Bool) (a : Action), Undisturbed ⟨now, .act i a⟩ :=
    fun _ _ _ ↦ ⟨by simp, by simp⟩
  have hrun : (machine conf).Run (fun _ _ c ↦ Undisturbed c) _ _ :=
    .step ⟨8, .act false .claim⟩ (.step ⟨7, .act true .claim⟩
      (.step ⟨6, .act true (.enqueue 100 "b")⟩ (.step ⟨6, .act false (.enqueue 6 "a")⟩
        (.step ⟨6, .act true .read⟩ (.step ⟨6, .act false .read⟩
          (.step ⟨0, .act false (.seed "e" 0)⟩
          .start (hact ..)) (hact ..)) (hact ..)) (hact ..)) (hact ..)) (hact ..)) (hact ..)
  exact ⟨conf, _, _, hrun, by decide +kernel, by decide +kernel,
    (one_winner_per_tick conf hrun).2.2 "e" 5, by decide +kernel⟩

end TaskQueue.Scheduler.InMemory
