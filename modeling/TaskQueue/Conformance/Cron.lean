import TaskQueue.Memory.Services
import TaskQueue.Redis.CronSet

/-!
# The two cron stores in lockstep

Schedulers are tested against the in-memory `CronStore` and run against Redis. The one keeps times
to the nanosecond and compares them with `Equal`, the other keeps a sorted set of milliseconds and
compares numbers in a script. **On whole milliseconds they cannot be told apart**
(`cron_stores_agree`): given the same calls, they give the same answers for ever, whatever is done
to the jobs of either broker in between.

Cron schedules only have whole minutes as fire times. An `@every` of less than a millisecond is
another matter, and so is an empty ID in `ClaimCron`, which only the Redis broker refuses. A score
is a double, so the times are within `2 ^ 53` milliseconds of 1970; and `DueCron` in memory makes
room for as many entries as its limit says, so the limit is no more than a million or so.
-/

namespace TaskQueue.Conformance.Cron

open Memory (Broker)
open Redis (Store Config unixMilli)

/-! ### Operations -/

/-- The operations of `CronStore`. -/
inductive Op
  | scheduleIfAbsent (id : String) (fireAt : Time)
  | due (limit : ℤ)
  | claim (id : String) (firedAt nextAt : Time)
  | remove (id : String)

def Op.memory : Op → Memory.Op
  | .scheduleIfAbsent id t => .scheduleCronIfAbsent id t
  | .due limit => .dueCron limit
  | .claim id f n => .claimCron id f n
  | .remove id => .removeCron id

def Op.redis : Op → Redis.Op
  | .scheduleIfAbsent id t => .scheduleCronIfAbsent id t
  | .due limit => .dueCron limit
  | .claim id f n => .claimCron id f n
  | .remove id => .removeCron id

/-- A time that both stores keep exactly. -/
structure Stamp (t : Time) : Prop where
  whole : millisecond ∣ t
  exact : |unixMilli t| ≤ 2 ^ 53

/-- The times of a call are kept exactly, what is claimed has an ID, and there is room for what is
asked for. -/
def Op.Precise : Op → Prop
  | .scheduleIfAbsent _ t => Stamp t
  | .due limit => limit ≤ 2 ^ 20
  | .claim id f n => id ≠ "" ∧ Stamp f ∧ Stamp n
  | .remove _ => True

/-! ### Times -/

theorem unixMilli_mul {t : Time} (ht : millisecond ∣ t) : unixMilli t * millisecond = t :=
  Int.ediv_mul_cancel ht

theorem unixMilli_inj {t t' : Time} (ht : millisecond ∣ t) (ht' : millisecond ∣ t') :
    unixMilli t = unixMilli t' ↔ t = t' := by
  refine ⟨fun heq ↦ ?_, congrArg unixMilli⟩
  rw [← unixMilli_mul ht, heq, unixMilli_mul ht']

/-! ### The relation -/

/-- Both have the same entries, with whole milliseconds as fire times. -/
structure Mirrored (b : Broker) (s : Store) : Prop where
  lookup : ∀ id, s.cron.lookup id = (b.cron.lookup id).map unixMilli
  whole : ∀ id t, b.cron.lookup id = some t → millisecond ∣ t

variable {b b' : Broker} {s s' : Store} {cfg : Config} {wall : Time} {now : ℤ} {id : String}

theorem Mirrored.insert (hm : Mirrored b s) {t : Time} (ht : millisecond ∣ t)
    (hb : b'.cron = b.cron.insert id t) (hs : s'.cron = s.cron.insert id (unixMilli t)) :
    Mirrored b' s' := by
  refine ⟨fun k ↦ ?_, fun k t' hlook ↦ ?_⟩
  · rw [hb, hs, Table.lookup_insert_eq, Table.lookup_insert_eq]
    split_ifs
    · rfl
    · exact hm.lookup k
  · rw [hb, Table.lookup_insert_eq] at hlook
    split_ifs at hlook
    · obtain rfl := Option.some.inj hlook
      exact ht
    · exact hm.whole k t' hlook

theorem Mirrored.erase (hm : Mirrored b s) (hb : b'.cron = b.cron.erase id)
    (hs : s'.cron = s.cron.erase id) : Mirrored b' s' := by
  refine ⟨fun k ↦ ?_, fun k t' hlook ↦ ?_⟩
  · rw [hb, hs, Table.lookup_erase_eq, Table.lookup_erase_eq]
    split_ifs
    · rfl
    · exact hm.lookup k
  · rw [hb, Table.lookup_erase_eq] at hlook
    split_ifs at hlook
    exact hm.whole k t' hlook

/-- **What is due** is the same, in the same order. -/
theorem Mirrored.due (hm : Mirrored b s) (hnow : unixMilli wall = now) :
    b.cron.due (fun _ ↦ true) wall =
      (s.cron.due (fun _ ↦ true) now).map
        fun p ↦ toLex ((ofLex p).1 * millisecond, (ofLex p).2) := by
  refine Table.due_eq_of_mem_iff ?_ fun p ↦ ?_
  · refine List.Pairwise.sortedLT (List.pairwise_map.2 ?_)
    refine (Table.due_sortedLT s.cron _ now).pairwise.imp fun {p q} hlt ↦ ?_
    rw [Prod.Lex.lt_iff] at hlt ⊢
    exact hlt.imp (fun h ↦ mul_lt_mul_of_pos_right h (by decide))
      fun h ↦ ⟨congrArg (· * millisecond) h.1, h.2⟩
  · rw [Table.mem_due, List.mem_map]
    constructor
    · rintro ⟨hlook, hle, -⟩
      have ht := hm.whole _ _ hlook
      refine ⟨toLex (unixMilli (ofLex p).1, (ofLex p).2), Table.mem_due.2 ⟨?_, ?_, rfl⟩, ?_⟩
      · exact (hm.lookup _).trans (congrArg (Option.map unixMilli) hlook)
      · rw [← hnow]
        exact Int.ediv_le_ediv (by decide) hle
      · exact congrArg toLex (Prod.ext (unixMilli_mul ht) rfl)
    · rintro ⟨q, hq, rfl⟩
      obtain ⟨hlook, hle, -⟩ := Table.mem_due.1 hq
      rw [hm.lookup] at hlook
      obtain ⟨t, ht, heq⟩ := Option.map_eq_some_iff.1 hlook
      have htime : (ofLex q).1 * millisecond = t := by
        rw [← heq]
        exact unixMilli_mul (hm.whole _ _ ht)
      refine ⟨ht.trans (congrArg some htime.symm), ?_, rfl⟩
      calc (ofLex q).1 * millisecond
          ≤ unixMilli wall * millisecond := mul_le_mul_of_nonneg_right (hnow ▸ hle) (by decide)
        _ ≤ wall := Int.ediv_mul_le wall (by decide)

/-! ### Calls -/

variable (cfg) in
/-- The answers to a call are the same, and so is what it leaves. -/
def Agrees (b : Broker) (s : Store) (wall : Time) (now : ℤ) (op : Op) : Prop :=
  (Memory.exec b ⟨wall, op.memory⟩).1 = (Redis.exec cfg s ⟨now, op.redis⟩).1 ∧
    Mirrored (Memory.exec b ⟨wall, op.memory⟩).2 (Redis.exec cfg s ⟨now, op.redis⟩).2

theorem agrees_scheduleIfAbsent (hm : Mirrored b s) (hopen : b.closed = false) {t : Time}
    (ht : millisecond ∣ t) : Agrees cfg b s wall now (.scheduleIfAbsent id t) := by
  have hmemory : Memory.exec b ⟨wall, (Op.scheduleIfAbsent id t).memory⟩ =
      (b.scheduleCronIfAbsent id t).map (.of .won) fun b ↦ b := rfl
  have hredis : Redis.exec cfg s ⟨now, (Op.scheduleIfAbsent id t).redis⟩ =
      (Redis.scheduleCronIfAbsent (s.live cfg.visible now) id t).map (.of .won) fun s ↦ s := rfl
  have hlook : (s.cron.lookup id).isSome = (b.cron.lookup id).isSome := by
    rw [hm.lookup, Option.isSome_map]
  rw [Agrees, hmemory, hredis, Broker.scheduleCronIfAbsent, Redis.scheduleCronIfAbsent]
  by_cases hid : id = ""
  · rw [if_pos hid, if_pos hid]
    exact ⟨rfl, ⟨hm.lookup, hm.whole⟩⟩
  rw [if_neg hid, if_neg hid, hopen, if_neg Bool.false_ne_true,
    show ((s.live cfg.visible now).cron.lookup id).isSome = _ from hlook]
  split_ifs
  · exact ⟨rfl, ⟨hm.lookup, hm.whole⟩⟩
  · exact ⟨rfl, hm.insert ht rfl rfl⟩

theorem agrees_due (hm : Mirrored b s) (hopen : b.closed = false) (hnow : unixMilli wall = now)
    {limit : ℤ} (hroom : limit ≤ 2 ^ 20) : Agrees cfg b s wall now (.due limit) := by
  have hmax : ¬ Broker.maxCap 40 < limit := not_lt.2 (hroom.trans (by decide))
  refine ⟨?_, ⟨hm.lookup, hm.whole⟩⟩
  show Reply.of .due (b.dueCron wall limit) =
    .due (Redis.dueCron (s.live cfg.visible now) now limit)
  rw [Broker.dueCron, Redis.dueCron, hopen, if_neg Bool.false_ne_true, if_neg hmax]
  split_ifs with hlimit
  · rfl
  · rw [hm.due hnow, ← List.map_take, List.map_map]
    rfl

theorem agrees_claim (hm : Mirrored b s) (hopen : b.closed = false) (hid : id ≠ "") {f n : Time}
    (hf : millisecond ∣ f) (hn : millisecond ∣ n) : Agrees cfg b s wall now (.claim id f n) := by
  have hmemory : Memory.exec b ⟨wall, (Op.claim id f n).memory⟩ =
      (b.claimCron id f n).map (.of .won) fun b ↦ b := rfl
  have hredis : Redis.exec cfg s ⟨now, (Op.claim id f n).redis⟩ =
      (Redis.claimCron (s.live cfg.visible now) id f n).map (.of .won) fun s ↦ s := rfl
  rw [Agrees, hmemory, hredis, Broker.claimCron, Redis.claimCron, hopen,
    if_neg Bool.false_ne_true, if_neg hid, Redis.Script.cronClaim,
    show (s.live cfg.visible now).cron.lookup id = _ from hm.lookup id]
  rcases hlook : b.cron.lookup id with - | t
  · exact ⟨rfl, ⟨hm.lookup, hm.whole⟩⟩
  · have ht := hm.whole id t hlook
    by_cases heq : t = f
    · subst heq
      rw [if_pos rfl]
      dsimp only [Option.map_some]
      rw [if_neg (not_not.2 rfl)]
      exact ⟨rfl, hm.insert hn rfl rfl⟩
    · have hne : unixMilli t ≠ unixMilli f := fun h ↦ heq ((unixMilli_inj ht hf).1 h)
      rw [if_neg fun h ↦ heq (Option.some.inj h)]
      dsimp only [Option.map_some]
      rw [if_pos hne]
      exact ⟨rfl, ⟨hm.lookup, hm.whole⟩⟩

theorem agrees_remove (hm : Mirrored b s) (hopen : b.closed = false) :
    Agrees cfg b s wall now (.remove id) := by
  have hmemory : Memory.exec b ⟨wall, (Op.remove id).memory⟩ =
      (b.removeCron id).map (.of fun _ ↦ .done) fun b ↦ b := rfl
  rw [Agrees, hmemory, Broker.removeCron, hopen, if_neg Bool.false_ne_true]
  exact ⟨rfl, hm.erase rfl rfl⟩

/-- **One call on both.** -/
theorem agrees (hm : Mirrored b s) (hopen : b.closed = false) (hnow : unixMilli wall = now)
    {op : Op} (hop : op.Precise) : Agrees cfg b s wall now op := by
  cases op with
  | scheduleIfAbsent id t => exact agrees_scheduleIfAbsent hm hopen hop.whole
  | due limit => exact agrees_due hm hopen hnow hop
  | claim id f n => exact agrees_claim hm hopen hop.1 hop.2.1.whole hop.2.2.whole
  | remove id => exact agrees_remove hm hopen

/-! ### Runs -/

/-- The two brokers side by side. -/
structure Pair where
  memory : Broker
  redis : Store

/-- A call of `CronStore` on both, or an operation on the jobs of one of them. -/
inductive Step
  | both (op : Op)
  | memory (op : Memory.Op)
  | redis (op : Redis.Op)

/-- A step, with what the clocks say. -/
structure Input where
  wall : Time
  now : ℤ
  step : Step

variable (cfg) in
def next (p : Pair) (i : Input) : Pair :=
  match i.step with
  | .both op =>
    ⟨(Memory.exec p.memory ⟨i.wall, op.memory⟩).2, (Redis.exec cfg p.redis ⟨i.now, op.redis⟩).2⟩
  | .memory op => { p with memory := (Memory.exec p.memory ⟨i.wall, op⟩).2 }
  | .redis op => { p with redis := (Redis.exec cfg p.redis ⟨i.now, op⟩).2 }

variable (cfg) in
def machine : Machine Pair Input where
  init := ⟨Memory.new, .empty⟩
  next := next cfg

/-- What a run may do next. At a call of `CronStore` the clocks agree to the millisecond, within
what a double holds, and the in-memory broker is open; other steps are about jobs. -/
structure Matched (_ : List (Turn Pair Input)) (p : Pair) (i : Input) : Prop where
  opened : ∀ op, i.step = .both op → p.memory.closed = false
  clocks : ∀ op, i.step = .both op → unixMilli i.wall = i.now ∧ |i.now| ≤ 2 ^ 53
  precise : ∀ op, i.step = .both op → op.Precise
  memory : ∀ op, i.step = .memory op → op.isService = false
  redis : ∀ op, i.step = .redis op → ∀ c : Op, op ≠ c.redis

variable {h : List (Turn Pair Input)} {p : Pair} {i : Input}

theorem mirrored_next (hm : Mirrored p.memory p.redis) (hok : Matched h p i) :
    Mirrored (next cfg p i).memory (next cfg p i).redis := by
  rcases hstep : i.step with op | op | op
  · rw [next, hstep]
    exact (agrees hm (hok.opened op hstep) (hok.clocks op hstep).1 (hok.precise op hstep)).2
  · rw [next, hstep]
    have hcron := (Memory.services_exec (b := p.memory) (c := ⟨i.wall, op⟩)
      (hok.memory op hstep)).2
    refine ⟨fun k ↦ ?_, fun k t hlook ↦ hm.whole k t (hcron ▸ hlook)⟩
    rw [hcron]
    exact hm.lookup k
  · rw [next, hstep]
    have hno := hok.redis op hstep
    refine ⟨fun k ↦ ?_, hm.whole⟩
    rw [← hm.lookup k]
    rcases Redis.lookup_cron_exec cfg p.redis ⟨i.now, op⟩ k with
      hsame | ⟨t, rfl, -⟩ | ⟨f, t, rfl, -⟩ | rfl
    · exact hsame
    · exact absurd rfl (hno (.scheduleIfAbsent k t))
    · exact absurd rfl (hno (.claim k f t))
    · exact absurd rfl (hno (.remove k))

/-- **The two cron stores cannot be told apart.** In every run in which both are given the same
calls, with whole milliseconds and clocks that agree to the millisecond, all within `2 ^ 53`
milliseconds of 1970, and limits up to `2 ^ 20`, and in which jobs are handled on either side as it
happens, every call of `CronStore` is answered in the same way by both: the same entries are due, in
the same order and with the same fire times, the same claims are won, and the same calls are
refused. -/
theorem cron_stores_agree (hrun : (machine cfg).Run Matched h p) :
    ∀ t ∈ h, ∀ op, t.input.step = .both op →
      (Memory.exec t.before.memory ⟨t.input.wall, op.memory⟩).1 =
        (Redis.exec cfg t.before.redis ⟨t.input.now, op.redis⟩).1 := by
  intro t ht op hstep
  obtain ⟨older, hbefore, hok⟩ := hrun.of_mem ht
  have hm : Mirrored t.before.memory t.before.redis := by
    refine hbefore.invariant (P := fun _ p ↦ Mirrored p.memory p.redis) ?_ ?_
    · exact ⟨fun _ ↦ rfl, fun _ _ hlook ↦ by cases hlook⟩
    · exact fun h p i _ hm hok ↦ mirrored_next hm hok
  exact (agrees hm (hok.opened op hstep) (hok.clocks op hstep).1 (hok.precise op hstep)).1

theorem matched_both {wall : Time} (op : Op) (hopen : p.memory.closed = false)
    (hwall : |unixMilli wall| ≤ 2 ^ 53) (hop : op.Precise) :
    Matched h p ⟨wall, unixMilli wall, .both op⟩ where
  opened _ _ := hopen
  clocks _ _ := ⟨rfl, hwall⟩
  precise op' heq := by
    obtain rfl := Step.both.inj heq
    exact hop
  memory _ heq := by cases heq
  redis _ heq := by cases heq

/-- An entry is seeded in both, a job is enqueued in one of them, and the entry is due in both. -/
theorem cron_stores_agree_due : ∃ t h p, (machine .default).Run Matched (t :: h) p ∧
    h.length = 2 ∧
    (Memory.exec t.before.memory ⟨t.input.wall, .dueCron 10⟩).1 = .due [⟨"e", millisecond⟩] := by
  have hrun : (machine .default).Run Matched _ _ :=
    .step ⟨2 * millisecond + 5, _, .both (.due 10)⟩
      (.step ⟨0, 0, .memory (.enqueue "a" (some (.plain "q" "t" 1)))⟩
        (.step ⟨0, _, .both (.scheduleIfAbsent "e" millisecond)⟩ .start
          (matched_both (.scheduleIfAbsent "e" millisecond) rfl (by decide)
            ⟨dvd_refl millisecond, by decide⟩))
        { opened := fun _ heq ↦ by cases heq
          clocks := fun _ heq ↦ by cases heq
          precise := fun _ heq ↦ by cases heq
          memory := fun op heq ↦ by
            obtain rfl := Step.memory.inj heq
            rfl
          redis := fun _ heq ↦ by cases heq })
      (matched_both (.due 10) rfl (by decide) (show (10 : ℤ) ≤ 2 ^ 20 by decide))
  exact ⟨_, _, _, hrun, rfl,
    (cron_stores_agree hrun _ List.mem_cons_self (.due 10) rfl).trans (by rfl)⟩

end TaskQueue.Conformance.Cron
