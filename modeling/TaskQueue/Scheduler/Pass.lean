import TaskQueue.Server.Config

/-!
# A pass of the scheduler

`fireDueSchedules` of `scheduler.go` from its first line to its last, run by one scheduler at one
time, with nobody in between. It reads at most `cronBatch` due entries, the earliest, and skips
those it does not know and those that never fire again. A skipped entry keeps its fire time, so it
is read again by the next pass and by every pass after that.

A pass that leaves every fire time as it was should mean that nothing is due which this server could
fire. That is so exactly if the entries it has to skip do not fill the batch (`idle_pass_iff`): a
hundred of them, earlier than the server's own, and its own never fire again (`crowded_out`).

**Brokers.** A pass uses three operations of a broker and needs little of what they do. `CronBroker`
is a broker as a pass sees it, with these facts; both brokers are one. They differ in the unit of a
stored fire time: the in-memory broker keeps nanoseconds, Redis whole milliseconds, so that a
schedule which fires more than once in a millisecond can be advanced to the time it already has.
-/

namespace TaskQueue.Scheduler

/-- A broker as a pass of the scheduler sees it. The first argument of an operation is the time at
which the pass runs, by the clock of the server and of the broker. -/
structure CronBroker (β : Type) where
  /-- `DueCron` -/
  dueCron : Time → ℤ → β → Except Err (List DueCronEntry) × β
  /-- `Enqueue`, with the ID it draws. -/
  enqueue : Time → String → Job → β → Except Err Job × β
  /-- `ClaimCron` -/
  claimCron : Time → String → Time → Time → β → Except Err Bool × β
  /-- The stored fire times. -/
  cron : β → Table String ℤ
  /-- A time as it is stored. -/
  stamp : Time → ℤ
  /-- A stored time as it is read. -/
  time : ℤ → Time
  /-- The broker answers without errors. -/
  Ready : β → Prop
  /-- What is due by its stored time is due by the clock. -/
  time_le_iff : ∀ t wall, time t ≤ wall ↔ t ≤ stamp wall
  /-- The first hundred of the due entries are read, and nothing is written. -/
  dueCron_eq : ∀ b wall, Ready b →
    (dueCron wall cronBatch b).1 = .ok ((((cron b).due (fun _ ↦ true) (stamp wall)).take 100).map
      fun c ↦ ⟨(ofLex c).2, time (ofLex c).1⟩) ∧
    Ready (dueCron wall cronBatch b).2 ∧ cron (dueCron wall cronBatch b).2 = cron b
  /-- A job with a queue and a type is stored or a duplicate; the fire times stay as they are. -/
  enqueue_accepted : ∀ b wall newID j, Ready b → j.queue ≠ "" → j.type ≠ "" →
    accepted (.of .stored (enqueue wall newID j b).1) = true ∧
      Ready (enqueue wall newID j b).2 ∧ cron (enqueue wall newID j b).2 = cron b
  /-- A tick is advanced by whoever names its fire time. -/
  claimCron_eq : ∀ b wall id t next, Ready b → id ≠ "" → (cron b).lookup id = some t →
    Ready (claimCron wall id (time t) next b).2 ∧
      cron (claimCron wall id (time t) next b).2 = (cron b).insert id (stamp next)

/-! ### The two brokers -/

theorem accepted_memoryEnqueue {b : Memory.Broker} (hopen : b.closed = false) (wall : Time)
    (newID : String) {j : Job} (hqueue : j.queue ≠ "") (htype : j.type ≠ "") :
    accepted (.of .stored (b.enqueue wall newID (some j)).1) = true ∧
      (b.enqueue wall newID (some j)).2.closed = false ∧
      (b.enqueue wall newID (some j)).2.cron = b.cron := by
  rw [Memory.Broker.enqueue, if_neg hqueue, if_neg htype, if_neg (by simp [hopen])]
  rcases b.uniqueHolder wall j.uniqueKey with - | existing
  · refine ⟨rfl, ?_, ?_⟩ <;> simp only [Memory.Broker.store] <;> split_ifs
    · exact hopen
    · exact hopen
    · rfl
    · rfl
  · exact ⟨rfl, hopen, rfl⟩

/-- The in-memory broker, until it is closed. -/
def memoryBroker : CronBroker Memory.Broker where
  dueCron wall limit b := (b.dueCron wall limit, b)
  enqueue wall newID j b := b.enqueue wall newID (some j)
  claimCron _ id firedAt nextAt b := b.claimCron id firedAt nextAt
  cron := Memory.Broker.cron
  stamp t := t
  time t := t
  Ready b := b.closed = false
  time_le_iff _ _ := Iff.rfl
  dueCron_eq b wall hopen := by
    rw [Memory.Broker.dueCron, if_neg (by decide), if_neg (by simp [hopen]), if_neg (by decide)]
    exact ⟨rfl, hopen, rfl⟩
  enqueue_accepted _ wall newID _ hopen hqueue htype :=
    accepted_memoryEnqueue hopen wall newID hqueue htype
  claimCron_eq b wall id t next hopen _ ht := by
    rw [Memory.Broker.claimCron, if_neg (by simp [hopen]), if_pos ht]
    exact ⟨hopen, rfl⟩

/-- `enqueue.lua` leaves the fire times alone. -/
theorem cron_place (s : Redis.Store) (h : Redis.Hash) :
    (Redis.Script.place s h).cron = s.cron := by
  rw [Redis.Script.place]
  dsimp only
  split_ifs <;> rfl

theorem accepted_redisEnqueue (s : Redis.Store) (now : ℤ) (wall : Time) (newID : String) {j : Job}
    (hqueue : j.queue ≠ "") (htype : j.type ≠ "") :
    accepted (.of .stored (Redis.enqueue s now newID wall (some j)).1) = true ∧
      (Redis.enqueue s now newID wall (some j)).2.cron = s.cron := by
  rcases Redis.enqueue_outcome s now newID wall j with
    ⟨hinvalid, -⟩ | ⟨-, ⟨u, -, -, heq⟩ | ⟨-, st, heq⟩⟩
  · exact absurd hinvalid (not_or.2 ⟨hqueue, htype⟩)
  · rw [heq]
    exact ⟨rfl, rfl⟩
  · rw [heq]
    exact ⟨rfl, cron_place _ _⟩

/-- The Redis broker. A command sees the keys that have not expired. -/
def redisBroker (cfg : Redis.Config) : CronBroker Redis.Store where
  dueCron wall limit s :=
    (.ok (Redis.dueCron (s.live cfg.visible (Redis.unixMilli wall)) (Redis.unixMilli wall) limit),
      s.live cfg.visible (Redis.unixMilli wall))
  enqueue wall newID j s :=
    Redis.enqueue (s.live cfg.visible (Redis.unixMilli wall)) (Redis.unixMilli wall) newID wall
      (some j)
  claimCron wall id firedAt nextAt s :=
    Redis.claimCron (s.live cfg.visible (Redis.unixMilli wall)) id firedAt nextAt
  cron := Redis.Store.cron
  stamp := Redis.unixMilli
  time t := t * millisecond
  Ready _ := True
  time_le_iff t wall := (Int.le_ediv_iff_mul_le (by decide)).symm
  dueCron_eq s wall _ := by
    rw [Redis.dueCron, if_neg (by decide)]
    exact ⟨rfl, trivial, rfl⟩
  enqueue_accepted s wall newID j _ hqueue htype := by
    obtain ⟨haccepted, hcron⟩ := accepted_redisEnqueue
      (s.live cfg.visible (Redis.unixMilli wall)) (Redis.unixMilli wall) wall newID hqueue htype
    exact ⟨haccepted, trivial, hcron⟩
  claimCron_eq s wall id t next _ hid ht := by
    have hscore : Redis.unixMilli (t * millisecond) = t := Int.mul_ediv_cancel t (by decide)
    refine ⟨trivial, ?_⟩
    rw [Redis.claimCron, if_neg hid, hscore, Redis.Script.cronClaim,
      show (s.live cfg.visible (Redis.unixMilli wall)).cron.lookup id = some t from ht]
    dsimp only
    rw [if_neg (not_not_intro rfl)]
    rfl

/-! ### The pass -/

section

variable {β : Type} (B : CronBroker β) (entries : Entries) (wall : Time) (newID : String → String)

/-- One round of the loop of `fireDueSchedules`: the job of the tick first, and the claim only if
the job is in the broker. -/
def fireEntry (b : β) (d : DueCronEntry) : β :=
  match plan entries wall d with
  | none => b
  | some (j, next) =>
    let r := B.enqueue wall (newID d.id) j b
    if accepted (.of .stored r.1) then (B.claimCron wall d.id d.fireAt next r.2).2 else r.2

/-- `fireDueSchedules`. The IDs of the jobs are drawn by `newID`. -/
def fireDueSchedules (b : β) : β :=
  match B.dueCron wall cronBatch b with
  | (.error _, b) => b
  | (.ok due, b) => due.foldl (fireEntry B entries wall newID) b

/-- The pass leaves every stored fire time as it was. -/
def Idles (b : β) : Prop :=
  ∀ id, (B.cron (fireDueSchedules B entries wall newID b)).lookup id = (B.cron b).lookup id

/-- The server knows the entry, and its schedule has a next fire time. -/
def Fires (id : String) : Prop := ∃ ce, entries id = some ce ∧ ce.schedule wall ≠ zeroTime

/-- No stored entry is due that the server knows and that has a next fire time. -/
def NothingDue (b : β) : Prop :=
  ∀ id t, (B.cron b).lookup id = some t → B.time t ≤ wall → ¬ Fires entries wall id

/-- The due entries the pass reads, with their stored times. -/
def batch (b : β) : List (ℤ ×ₗ String) :=
  ((B.cron b).due (fun _ ↦ true) (B.stamp wall)).take 100

/-- The pass advances this entry: the server knows it, and its next fire time is not stored as the
time it has. -/
def Moves (c : ℤ ×ₗ String) : Prop :=
  ∃ ce, entries (ofLex c).2 = some ce ∧ ce.schedule wall ≠ zeroTime ∧
    B.stamp (ce.schedule wall) ≠ (ofLex c).1

end

variable {β : Type} {B : CronBroker β} {entries : Entries} {wall : Time} {newID : String → String}
  {b : β} {id : String} {t : ℤ}

/-! ### What a pass does -/

/-- What is made of an entry that is due: the base is the time of the pass. -/
theorem plan_eq_some {j : Job} {next : Time} (hdue : B.time t ≤ wall) :
    plan entries wall ⟨id, B.time t⟩ = some (j, next) ↔
      ∃ ce, entries id = some ce ∧ ce.schedule wall ≠ zeroTime ∧ j = tickJob ce ⟨id, B.time t⟩ ∧
        next = ce.schedule wall := by
  simp only [plan, Option.bind_eq_some_iff, Option.map_eq_some_iff, nextFire,
    if_neg (not_lt.2 hdue)]
  constructor
  · rintro ⟨ce, hce, next', hnext, heq⟩
    split_ifs at hnext with hzero
    obtain ⟨rfl, rfl⟩ := Prod.mk.inj heq
    obtain rfl := Option.some.inj hnext
    exact ⟨ce, hce, hzero, rfl, rfl⟩
  · rintro ⟨ce, hce, hzero, rfl, rfl⟩
    exact ⟨ce, hce, _, if_neg hzero, rfl⟩

/-- The stored fire time of a due entry after the pass has read it. -/
def advanced (B : CronBroker β) (entries : Entries) (wall : Time) (id : String) (t : ℤ) : ℤ :=
  (plan entries wall ⟨id, B.time t⟩).elim t fun p ↦ B.stamp p.2

theorem advanced_ne_iff {c : ℤ ×ₗ String} (hdue : B.time (ofLex c).1 ≤ wall) :
    advanced B entries wall (ofLex c).2 (ofLex c).1 ≠ (ofLex c).1 ↔ Moves B entries wall c := by
  rw [advanced]
  rcases hplan : plan entries wall ⟨(ofLex c).2, B.time (ofLex c).1⟩ with - | ⟨j, next⟩
  · refine iff_of_false (fun hne ↦ hne rfl) ?_
    rintro ⟨ce, hce, hnext, -⟩
    have hsome := (plan_eq_some hdue).2 ⟨ce, hce, hnext, rfl, rfl⟩
    rw [hplan] at hsome
    cases hsome
  · obtain ⟨ce, hce, hnext, -, rfl⟩ := (plan_eq_some hdue).1 hplan
    refine ⟨fun hne ↦ ⟨ce, hce, hnext, hne⟩, ?_⟩
    rintro ⟨ce', hce', -, hne⟩
    obtain rfl := Option.some.inj (hce.symm.trans hce')
    exact hne

/-- **One round of the loop** advances the entry, and leaves every other as it was. -/
theorem lookup_fireEntry (wall : Time) (newID : String → String) (hready : B.Ready b)
    (hnamed : entries "" = none) (ht : (B.cron b).lookup id = some t) :
    B.Ready (fireEntry B entries wall newID b ⟨id, B.time t⟩) ∧ ∀ x,
    (B.cron (fireEntry B entries wall newID b ⟨id, B.time t⟩)).lookup x =
      if x = id then some (advanced B entries wall id t) else (B.cron b).lookup x := by
  rw [fireEntry, advanced]
  rcases hplan : plan entries wall ⟨id, B.time t⟩ with - | ⟨j, next⟩
  · refine ⟨hready, fun x ↦ ?_⟩
    split_ifs with hx
    · rw [hx, ht]
      rfl
    · rfl
  · obtain ⟨ce, hce, hmap⟩ := Option.bind_eq_some_iff.1 hplan
    obtain ⟨next', -, heq⟩ := Option.map_eq_some_iff.1 hmap
    obtain ⟨rfl, rfl⟩ := Prod.mk.inj heq
    have hid : id ≠ "" := by
      rintro rfl
      rw [hnamed] at hce
      cases hce
    obtain ⟨haccepted, hready', hcron⟩ := B.enqueue_accepted b wall (newID id)
      (tickJob ce ⟨id, B.time t⟩) hready ce.queue_ne ce.type_ne
    obtain ⟨hready'', hcron'⟩ := B.claimCron_eq _ wall id t next' hready' hid (hcron ▸ ht)
    dsimp only
    rw [if_pos haccepted]
    refine ⟨hready'', fun x ↦ ?_⟩
    rw [hcron', hcron, Table.lookup_insert_eq]
    rfl

/-- **The whole loop** advances the entries of its list, and leaves every other as it was. -/
theorem lookup_foldl (wall : Time) (newID : String → String) (hnamed : entries "" = none) :
    ∀ (l : List (ℤ ×ₗ String)) {b : β}, B.Ready b →
    (Table.keysOf l).Nodup → (∀ c ∈ l, (B.cron b).lookup (ofLex c).2 = some (ofLex c).1) →
    (∀ x, x ∉ Table.keysOf l →
      (B.cron ((l.map fun c ↦ (⟨(ofLex c).2, B.time (ofLex c).1⟩ : DueCronEntry)).foldl
        (fireEntry B entries wall newID) b)).lookup x = (B.cron b).lookup x) ∧
    ∀ c ∈ l, (B.cron ((l.map fun c ↦ (⟨(ofLex c).2, B.time (ofLex c).1⟩ : DueCronEntry)).foldl
        (fireEntry B entries wall newID) b)).lookup (ofLex c).2 =
      some (advanced B entries wall (ofLex c).2 (ofLex c).1) := by
  intro l
  induction l with
  | nil => exact fun _ _ _ ↦ ⟨fun _ _ ↦ rfl, by simp⟩
  | cons c l ih =>
    intro b hready hnodup hstored
    rw [Table.keysOf_cons, List.nodup_cons] at hnodup
    obtain ⟨hready', hround⟩ := lookup_fireEntry wall newID hready hnamed
      (hstored c List.mem_cons_self)
    have hrest : ∀ c' ∈ l, (B.cron (fireEntry B entries wall newID b
        ⟨(ofLex c).2, B.time (ofLex c).1⟩)).lookup (ofLex c').2 = some (ofLex c').1 := by
      intro c' hc'
      rw [hround, if_neg, hstored c' (List.mem_cons_of_mem c hc')]
      exact fun heq ↦ hnodup.1 (heq ▸ List.mem_map_of_mem hc')
    obtain ⟨hother, hlisted⟩ := ih hready' hnodup.2 hrest
    refine ⟨fun x hx ↦ ?_, fun c' hc' ↦ ?_⟩
    · rw [Table.keysOf_cons, List.mem_cons, not_or] at hx
      exact (hother x hx.2).trans (by rw [hround, if_neg hx.1])
    · rcases List.mem_cons.1 hc' with rfl | hc'
      · exact (hother _ hnodup.1).trans (by rw [hround, if_pos rfl])
      · exact hlisted c' hc'

theorem mem_batch {c : ℤ ×ₗ String} (hc : c ∈ batch B wall b) :
    (B.cron b).lookup (ofLex c).2 = some (ofLex c).1 ∧ B.time (ofLex c).1 ≤ wall := by
  obtain ⟨hstored, hle, -⟩ := Table.mem_due.1 (List.mem_of_mem_take hc)
  exact ⟨hstored, (B.time_le_iff _ _).2 hle⟩

/-- **A pass is idle exactly if it advances nothing it reads.** -/
theorem idles_iff (hready : B.Ready b) (hnamed : entries "" = none) :
    Idles B entries wall newID b ↔ ∀ c ∈ batch B wall b, ¬ Moves B entries wall c := by
  have hnodup : (Table.keysOf (batch B wall b)).Nodup := by
    rw [batch, Table.keysOf, List.map_take]
    exact (Table.keysOf_due_nodup _ _ _).sublist (List.take_sublist _ _)
  obtain ⟨hread, hready', hcron⟩ := B.dueCron_eq b wall hready
  have hpass : fireDueSchedules B entries wall newID b =
      ((batch B wall b).map fun c ↦ (⟨(ofLex c).2, B.time (ofLex c).1⟩ : DueCronEntry)).foldl
        (fireEntry B entries wall newID) (B.dueCron wall cronBatch b).2 := by
    rw [fireDueSchedules, ← Prod.mk.eta (p := B.dueCron wall cronBatch b), hread]
    rfl
  obtain ⟨hother, hlisted⟩ := lookup_foldl wall newID hnamed (batch B wall b) hready' hnodup
    fun c hc ↦ hcron ▸ (mem_batch hc).1
  rw [hcron] at hother
  rw [Idles, hpass]
  constructor
  · intro hidle c hc hmoves
    obtain ⟨hstored, hdue⟩ := mem_batch hc
    refine (advanced_ne_iff hdue).2 hmoves (Option.some.inj ?_)
    exact (hlisted c hc).symm.trans ((hidle _).trans hstored)
  · intro hstill id
    by_cases hid : id ∈ Table.keysOf (batch B wall b)
    · obtain ⟨c, hc, rfl⟩ := List.mem_map.1 hid
      obtain ⟨hstored, hdue⟩ := mem_batch hc
      rw [hlisted c hc, hstored]
      exact congrArg some (not_not.1 fun hne ↦ hstill c hc ((advanced_ne_iff hdue).1 hne))
    · exact hother id hid

/-- An idle pass means that nothing is due, exactly if the batch has something to advance whenever
something is due. -/
theorem nothingDue_of_idles_iff (hready : B.Ready b) (hnamed : entries "" = none) :
    (Idles B entries wall newID b → NothingDue B entries wall b) ↔
      (¬ NothingDue B entries wall b → ∃ c ∈ batch B wall b, Moves B entries wall c) := by
  rw [← not_imp_not, idles_iff hready hnamed]
  push Not
  rfl

/-! ### The pass in steps -/

/-- The commands of a pass. -/
def CronBroker.answer (B : CronBroker β) (wall : Time) : Redis.Op → β → Option (Reply × β)
  | .dueCron limit, b => some ((B.dueCron wall limit b).map (.of .due) fun b ↦ b)
  | .enqueue newID _ (some j), b =>
    some ((B.enqueue wall newID j b).map (.of .stored) fun b ↦ b)
  | .claimCron id firedAt nextAt, b =>
    some ((B.claimCron wall id firedAt nextAt b).map (.of .won) fun b ↦ b)
  | _, _ => none

/-- One step of a scheduler that gets every reply: where it is, and the broker. -/
def actAlone (B : CronBroker β) (entries : Entries) (wall : Time) (x : Pc × β) (a : Action) :
    Pc × β :=
  let r := (command entries x.1 a).bind fun op ↦ B.answer wall op x.2
  (resume entries x.1 (r.map Prod.fst) a, (r.map Prod.snd).getD x.2)

/-- The steps of one round of the loop. -/
theorem actAlone_fireEntry (newID : String → String) (b : β) (d : DueCronEntry)
    (rest : List DueCronEntry) :
    ∃ as : List Action, (∀ a ∈ as, a = .claim ∨ ∃ i, a = .enqueue wall i) ∧
      as.foldl (actAlone B entries wall) (.firing (d :: rest), b) =
        (.firing rest, fireEntry B entries wall newID b d) := by
  rcases hplan : plan entries wall d with - | ⟨j, next⟩
  · refine ⟨[.enqueue wall (newID d.id)], by simp, ?_⟩
    simp [actAlone, command, resume, fireEntry, hplan]
  · rcases haccepted : accepted (.of .stored (B.enqueue wall (newID d.id) j b).1) with - | -
    · refine ⟨[.enqueue wall (newID d.id)], by simp, ?_⟩
      simp [actAlone, command, resume, fireEntry, hplan, CronBroker.answer, haccepted]
    · refine ⟨[.enqueue wall (newID d.id), .claim], by simp, ?_⟩
      simp [actAlone, command, resume, fireEntry, hplan, CronBroker.answer, haccepted]

/-- The actions of a pass at the time `wall`. -/
def Passes (wall : Time) (a : Action) : Prop := a = .read ∨ a = .claim ∨ ∃ i, a = .enqueue wall i

theorem actAlone_foldl (newID : String → String) (due : List DueCronEntry) (b : β) :
    ∃ as : List Action, (∀ a ∈ as, Passes wall a) ∧
      as.foldl (actAlone B entries wall) (.firing due, b) =
        (.idle, due.foldl (fireEntry B entries wall newID) b) := by
  induction due generalizing b with
  | nil => exact ⟨[.enqueue wall ""], by simp [Passes], rfl⟩
  | cons d due ih =>
    obtain ⟨as, has, hround⟩ := actAlone_fireEntry newID b d due
    obtain ⟨as', has', hrest⟩ := ih (fireEntry B entries wall newID b d)
    refine ⟨as ++ as', fun a ha ↦ ?_, ?_⟩
    · exact (List.mem_append.1 ha).elim (fun ha ↦ .inr (has a ha)) (has' a)
    · rw [List.foldl_append, hround, hrest]
      rfl

/-- A pass of one scheduler from idle to idle, step by step. -/
theorem actAlone_pass (B : CronBroker β) (entries : Entries) (wall : Time)
    (newID : String → String) (b : β) : ∃ as : List Action, (∀ a ∈ as, Passes wall a) ∧
    as.foldl (actAlone B entries wall) (.idle, b) =
      (.idle, fireDueSchedules B entries wall newID b) := by
  rcases hread : B.dueCron wall cronBatch b with ⟨err | due, b'⟩
  · refine ⟨[.read], by simp [Passes], ?_⟩
    simp [actAlone, command, resume, CronBroker.answer, fireDueSchedules, hread, Reply.of]
  · obtain ⟨as, has, hloop⟩ := actAlone_foldl newID due b'
    have hfirst : actAlone B entries wall (.idle, b) .read = (.firing due, b') := by
      simp [actAlone, command, resume, CronBroker.answer, hread, Reply.of]
    refine ⟨.read :: as, List.forall_mem_cons.2 ⟨.inl rfl, has⟩, ?_⟩
    rw [List.foldl_cons, hfirst, hloop, fireDueSchedules, hread]

theorem op_of_command {p : Pc} {a : Action} {op : Redis.Op} (ha : Passes wall a)
    (hcmd : command entries p a = some op) : op = .dueCron cronBatch ∨
      (∃ i j, op = .enqueue i wall (some j)) ∨ ∃ id f f', op = .claimCron id f f' := by
  rcases ha with rfl | rfl | ⟨i, rfl⟩
  · simp only [command] at hcmd
    split at hcmd
    · exact .inl (Option.some.inj hcmd).symm
    · cases hcmd
  · simp only [command] at hcmd
    split at hcmd
    · exact .inr (.inr ⟨_, _, _, (Option.some.inj hcmd).symm⟩)
    · cases hcmd
  · simp only [command] at hcmd
    split at hcmd
    · obtain ⟨x, -, rfl⟩ := Option.map_eq_some_iff.1 hcmd
      exact .inr (.inl ⟨i, x.1, rfl⟩)
    · cases hcmd

section Systems

variable {ι : Type} [DecidableEq ι]

/-- Steps of one scheduler in a system of many are steps of this scheduler alone. -/
theorem exists_pass {σ : Type} {f : β → (ι → Pc) → σ} {g : σ → Action → σ} {i : ι}
    (hstep : ∀ b pc a, Passes wall a → g (f b pc) a =
      f (actAlone B entries wall (pc i, b) a).2
        (Function.update pc i (actAlone B entries wall (pc i, b) a).1))
    (newID : String → String) (b : β) {pc : ι → Pc} (hidle : pc i = .idle) :
    ∃ as : List Action, (∀ a ∈ as, Passes wall a) ∧
      as.foldl g (f b pc) = f (fireDueSchedules B entries wall newID b) pc := by
  have hsteps : ∀ (as : List Action), (∀ a ∈ as, Passes wall a) → ∀ b pc, as.foldl g (f b pc) =
      f (as.foldl (actAlone B entries wall) (pc i, b)).2
        (Function.update pc i (as.foldl (actAlone B entries wall) (pc i, b)).1) := by
    intro as
    induction as with
    | nil =>
      intro _ b pc
      rw [List.foldl_nil, List.foldl_nil, Function.update_eq_self]
    | cons a as ih =>
      intro has b pc
      rw [List.forall_mem_cons] at has
      rw [List.foldl_cons, List.foldl_cons, hstep b pc a has.1, ih has.2, Function.update_self,
        Function.update_idem]
  obtain ⟨as, has, hpass⟩ := actAlone_pass B entries wall newID b
  refine ⟨as, has, ?_⟩
  rw [hsteps as has, hidle, hpass]
  exact congrArg _ (hidle ▸ Function.update_eq_self i pc)

/-- A step of one scheduler of the Redis system, if its command arrives and is answered. -/
theorem next_act (es : ι → Entries) (cfg : Redis.Config) (s : System ι) (i : ι) {a : Action}
    (ha : Passes wall a) :
    next es cfg s ⟨Redis.unixMilli wall, .act i a, .answered⟩ =
      ⟨(actAlone (redisBroker cfg) (es i) wall (s.pc i, s.store) a).2,
        Function.update s.pc i
          (actAlone (redisBroker cfg) (es i) wall (s.pc i, s.store) a).1⟩ := by
  rcases hcmd : command (es i) (s.pc i) a with - | op
  · simp [next, actAlone, ran, told, sent, hcmd]
  · have hanswer : (redisBroker cfg).answer wall op s.store =
        some (Redis.exec cfg s.store ⟨Redis.unixMilli wall, op⟩) := by
      rcases op_of_command ha hcmd with rfl | ⟨k, j, rfl⟩ | ⟨id, f, f', rfl⟩ <;> rfl
    simp [next, actAlone, ran, told, sent, hcmd, hanswer]

/-- And of one of the in-memory system. -/
theorem InMemory.next_act (conf : InMemory.Configured ι) (s : InMemory.System ι) (i : ι)
    {a : Action} (ha : Passes wall a) :
    InMemory.next conf s ⟨wall, .act i a⟩ =
      ⟨(actAlone memoryBroker (conf.entries i) wall (s.pc i, s.broker) a).2,
        Function.update s.pc i
          (actAlone memoryBroker (conf.entries i) wall (s.pc i, s.broker) a).1⟩ := by
  rcases hcmd : command (conf.entries i) (s.pc i) a with - | op
  · simp [InMemory.next, actAlone, InMemory.told, InMemory.sent, hcmd]
  · obtain ⟨call, hcall, hanswer⟩ : ∃ call, InMemory.callOf op = some call ∧
        memoryBroker.answer wall op s.broker = some (Memory.exec s.broker ⟨wall, call⟩) := by
      rcases op_of_command ha hcmd with rfl | ⟨k, j, rfl⟩ | ⟨id, f, f', rfl⟩
      · exact ⟨_, rfl, rfl⟩
      · exact ⟨_, rfl, rfl⟩
      · exact ⟨_, rfl, rfl⟩
    simp [InMemory.next, actAlone, InMemory.told, InMemory.sent, hcmd, hcall, hanswer]

/-- **A pass is a run of the system** in which one idle scheduler takes steps, at one time, and
nobody else does: in the Redis system, and in the in-memory one. -/
theorem pass_in_steps (es : ι → Entries) (cfg : Redis.Config) (conf : InMemory.Configured ι) (i : ι)
    (wall : Time) (newID : String → String) :
    (∀ s : System ι, s.pc i = .idle → ∃ as : List Action, (∀ a ∈ as, Passes wall a) ∧
      as.foldl (fun s a ↦ next es cfg s ⟨Redis.unixMilli wall, .act i a, .answered⟩) s =
        ⟨fireDueSchedules (redisBroker cfg) (es i) wall newID s.store, s.pc⟩) ∧
    ∀ s : InMemory.System ι, s.pc i = .idle → ∃ as : List Action, (∀ a ∈ as, Passes wall a) ∧
      as.foldl (fun s a ↦ InMemory.next conf s ⟨wall, .act i a⟩) s =
        ⟨fireDueSchedules memoryBroker (conf.entries i) wall newID s.broker, s.pc⟩ := by
  constructor
  · intro s hidle
    exact exists_pass (f := System.mk) (fun b pc a ha ↦ next_act es cfg ⟨b, pc⟩ i ha) newID
      s.store hidle
  · intro s hidle
    exact exists_pass (f := InMemory.System.mk)
      (fun b pc a ha ↦ InMemory.next_act conf ⟨b, pc⟩ i ha) newID s.broker hidle

end Systems

/-! ### Servers -/

/-- In the in-memory broker every entry that fires is moved: its next fire time is later than now,
and the stored one is not. -/
theorem moves_iff_fires {srv : ServerSetup} {b : Memory.Broker} {c : ℤ ×ₗ String}
    (hc : c ∈ batch memoryBroker wall b) :
    Moves memoryBroker srv.known wall c ↔ Fires srv.known wall (ofLex c).2 := by
  constructor
  · rintro ⟨ce, hce, hnext, -⟩
    exact ⟨ce, hce, hnext⟩
  · rintro ⟨ce, hce, hnext⟩
    refine ⟨ce, hce, hnext, ne_of_gt ?_⟩
    exact lt_of_le_of_lt (mem_batch hc).2 (ServerSetup.lt_schedule hce hnext)

/-- **A pass that does nothing means that nothing is due, exactly if the batch is not filled with
entries the server has to skip**: whenever something is due that the server could fire, so is
something among the first hundred due entries. In Redis that entry must also fire next in another
millisecond than the one it is stored with. -/
theorem idle_pass_iff {env : Environment} {caps : Option Capabilities} {cfg : ServerConfig}
    {srv : ServerSetup} (hok : newServer env caps cfg = .ok srv) (wall : Time)
    (newID : String → String) :
    (∀ b : Memory.Broker, b.closed = false →
      ((Idles memoryBroker srv.known wall newID b → NothingDue memoryBroker srv.known wall b) ↔
        (¬ NothingDue memoryBroker srv.known wall b →
          ∃ c ∈ batch memoryBroker wall b, Fires srv.known wall (ofLex c).2))) ∧
    ∀ (rcfg : Redis.Config) (s : Redis.Store),
      (Idles (redisBroker rcfg) srv.known wall newID s →
          NothingDue (redisBroker rcfg) srv.known wall s) ↔
        (¬ NothingDue (redisBroker rcfg) srv.known wall s →
          ∃ c ∈ batch (redisBroker rcfg) wall s, ∃ ce, srv.known (ofLex c).2 = some ce ∧
            ce.schedule wall ≠ zeroTime ∧ Redis.unixMilli (ce.schedule wall) ≠ (ofLex c).1) := by
  have hnamed := known_empty hok
  refine ⟨fun b hopen ↦ ?_, fun rcfg s ↦ nothingDue_of_idles_iff trivial hnamed⟩
  rw [nothingDue_of_idles_iff hopen hnamed]
  refine imp_congr_right fun _ ↦ exists_congr fun c ↦ and_congr_right fun hc ↦ moves_iff_fires hc

/-! ### Starvation -/

/-- The IDs of another build's entries. -/
def foreignID (i : ℕ) : String := String.ofList (List.replicate (i + 1) 'x')

theorem foreignID_injective : Function.Injective foreignID := by
  intro i i' heq
  have hlen := congrArg List.length (String.ofList_injective heq)
  simpa using hlen

theorem foreignID_ne (i : ℕ) : foreignID i ≠ "e" := by
  intro heq
  have hmem : 'e' ∈ List.replicate (i + 1) 'x' := by
    rw [String.ofList_injective (heq : String.ofList _ = String.ofList ['e'])]
    exact List.mem_singleton_self 'e'
  cases List.eq_of_mem_replicate hmem

/-- A cron store with `n` entries of another build, all of them at 0, and the entry `e` at 1. -/
def crowd : ℕ → Table String ℤ
  | 0 => (∅ : Table String ℤ).insert "e" 1
  | n + 1 => (crowd n).insert (foreignID n) 0

theorem lookup_crowd_foreignID {n i : ℕ} (hi : i < n) :
    (crowd n).lookup (foreignID i) = some 0 := by
  induction n with
  | zero => cases hi
  | succ n ih =>
    rw [crowd, Table.lookup_insert_eq]
    split_ifs with heq
    · rfl
    · exact ih (lt_of_le_of_ne (Nat.lt_succ_iff.1 hi) fun h ↦ heq (congrArg foreignID h))

theorem lookup_crowd (n : ℕ) : (crowd n).lookup "e" = some 1 := by
  induction n with
  | zero => rfl
  | succ n ih => rw [crowd, Table.lookup_insert_eq, if_neg (foreignID_ne n).symm, ih]

/-- **A hundred entries that the server has to skip, and its own entry behind them**: the pass does
nothing, at whatever time it runs. -/
theorem idles_of_crowd (hready : B.Ready b) (hcron : B.cron b = crowd 100)
    (hforeign : ∀ id, id ≠ "e" → entries id = none) (hdue : B.time 1 ≤ wall)
    (hfires : Fires entries wall "e") (newID : String → String) :
    Idles B entries wall newID b ∧ ¬ NothingDue B entries wall b := by
  have hdue' : 1 ≤ B.stamp wall := (B.time_le_iff 1 wall).1 hdue
  refine ⟨(idles_iff hready (hforeign "" (by decide))).2 fun c hc hmoves ↦ ?_, fun hnothing ↦ ?_⟩
  · obtain ⟨ce, hce, -⟩ := hmoves
    have hid : (ofLex c).2 = "e" := by
      by_contra hne
      rw [hforeign _ hne] at hce
      cases hce
    have htime : (ofLex c).1 = 1 := by
      have hstored := (mem_batch hc).1
      rw [hid, hcron, lookup_crowd] at hstored
      exact (Option.some.inj hstored).symm
    -- the foreign entries are all due before it
    refine Table.not_mem_take_due (l := (List.range 100).map fun i ↦ toLex (0, foreignID i))
      ?_ (by simp) (fun p hp ↦ ?_) hc
    · exact List.nodup_range.map fun i i' heq ↦ foreignID_injective (congrArg (ofLex · |>.2) heq)
    · obtain ⟨i, hi, rfl⟩ := List.mem_map.1 hp
      refine ⟨Table.mem_due.2 ⟨?_, ?_, rfl⟩, ?_⟩
      · rw [hcron]
        exact lookup_crowd_foreignID (List.mem_range.1 hi)
      · exact zero_le_one.trans hdue'
      · rw [Prod.Lex.lt_iff, htime]
        exact .inl zero_lt_one
  · refine hnothing "e" 1 ?_ hdue hfires
    rw [hcron, lookup_crowd]

/-- A configuration with one cron entry that fires every hour. -/
def hourly : ServerConfig :=
  { ServerConfig.plain ["q"] none with cron := [⟨"e", "@every 1h", "t", [], "q", 1⟩] }

/-- An environment in which every duration is an hour. -/
def hourlyEnvironment : Environment := { Environment.fixed with parseDuration := fun _ ↦ .ok hour }

theorem newServer_hourly : ∃ srv ce,
    newServer hourlyEnvironment (some ⟨true, true⟩) hourly = .ok srv ∧
    (∀ id, id ≠ "e" → srv.known id = none) ∧ srv.known "e" = some ce ∧
    ∀ t, ce.schedule t = t + hour := by
  refine ⟨_, _, rfl, fun id hid ↦ ?_, rfl, fun t ↦ rfl⟩
  simp only [ServerSetup.known, Option.map_eq_none_iff]
  exact AList.lookup_insert_ne hid

/-- **The server's own entry never fires again**, once a hundred entries of another build are due
before it: at every time from then on it is due, and the pass leaves all of them as they are. -/
theorem crowded_out : ∃ srv, newServer hourlyEnvironment (some ⟨true, true⟩) hourly = .ok srv ∧
    ∀ wall newID, millisecond ≤ wall →
      (Idles memoryBroker srv.known wall newID { Memory.new with cron := crowd 100 } ∧
        ¬ NothingDue memoryBroker srv.known wall { Memory.new with cron := crowd 100 }) ∧
      ∀ rcfg,
        Idles (redisBroker rcfg) srv.known wall newID { Redis.Store.empty with cron := crowd 100 } ∧
        ¬ NothingDue (redisBroker rcfg) srv.known wall
          { Redis.Store.empty with cron := crowd 100 } := by
  obtain ⟨srv, ce, hok, hforeign, hknown, hschedule⟩ := newServer_hourly
  refine ⟨srv, hok, fun wall newID hwall ↦ ?_⟩
  have hpos : 0 < wall := lt_of_lt_of_le (by decide) hwall
  have hfires : Fires srv.known wall "e" := by
    refine ⟨ce, hknown, ne_of_gt ?_⟩
    rw [hschedule]
    exact lt_trans (by decide) (lt_trans hpos (lt_add_of_pos_right wall (by decide)))
  refine ⟨idles_of_crowd rfl rfl hforeign hpos hfires newID, fun rcfg ↦
    idles_of_crowd trivial rfl hforeign ?_ hfires newID⟩
  exact (one_mul millisecond).trans_le hwall

/-- With nobody before it, the pass advances the entry, in both brokers. -/
theorem idle_pass_iff_alone : ∃ srv,
    newServer hourlyEnvironment (some ⟨true, true⟩) hourly = .ok srv ∧
    ¬ Idles memoryBroker srv.known millisecond (fun id ↦ id)
      { Memory.new with cron := crowd 0 } ∧
    ¬ Idles (redisBroker .default) srv.known millisecond (fun id ↦ id)
      { Redis.Store.empty with cron := crowd 0 } := by
  obtain ⟨srv, ce, hok, -, hknown, hschedule⟩ := newServer_hourly
  have hnext : ce.schedule millisecond ≠ zeroTime := by
    rw [hschedule]
    decide
  obtain ⟨hmemory, hredis⟩ := idle_pass_iff hok millisecond fun id ↦ id
  refine ⟨srv, hok, fun hidle ↦ ?_, fun hidle ↦ ?_⟩
  · refine (hmemory _ rfl).2 (fun _ ↦ ?_) hidle "e" 1 rfl (by decide) ⟨ce, hknown, hnext⟩
    exact ⟨toLex (1, "e"), by decide, ce, hknown, hnext⟩
  · refine (hredis _ _).2 (fun _ ↦ ?_) hidle "e" 1 rfl (by decide) ⟨ce, hknown, hnext⟩
    refine ⟨toLex (1, "e"), by decide, ce, hknown, hnext, ?_⟩
    rw [hschedule]
    decide

end TaskQueue.Scheduler
