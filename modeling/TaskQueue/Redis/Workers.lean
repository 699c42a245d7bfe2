import TaskQueue.Redis.Broker
import TaskQueue.Server.Loops
import TaskQueue.Transition.Run

/-!
# Heartbeats of a fleet

A worker reports with `Heartbeat`, which runs `heartbeat.lua`. The script keeps two things: a
**hash** for each worker that expires when the worker has been silent for its TTL, and one sorted
set of all workers, scored by their last beat. The members of the set do not expire, so every
heartbeat also prunes it: whoever last reported longer ago than a TTL is taken out.

The TTL is the **caller's**. A worker that reports with a short TTL therefore takes out workers that
report with a longer one, while their hashes are still there. `live_workers_listed_iff` says exactly
when that happens in a run; where all workers report with one TTL it never does
(`listed_of_uniform`).
-/

namespace TaskQueue

/-- The interval of `heartbeatLoop`, at which a server with a visibility timeout reports. -/
def heartbeatInterval (visibilityTimeout : Duration) : Duration :=
  Server.orSecond (min (5 * 10 ^ 9) (visibilityTimeout.tdiv 2))

/-- The TTL it reports with: three missed beats. -/
def heartbeatTTL (visibilityTimeout : Duration) : Duration :=
  3 * heartbeatInterval visibilityTimeout

namespace Redis

/-- A worker's hash, field for field. -/
structure WorkerHash where
  id : String
  host : String
  pid : ℤ
  queues : String
  concurrency : ℤ
  inFlight : ℤ
  startedAt : ℤ
  lastBeat : ℤ
  deriving DecidableEq

/-- A worker key: the hash and its expiry. -/
structure WorkerEntry where
  hash : WorkerHash
  expireAt : ℤ
  deriving DecidableEq

/-- The keys that heartbeats read and write. -/
structure Fleet where
  /-- `kWorkers` -/
  workers : ZSet
  /-- `kWorker` -/
  worker : String → Option WorkerEntry

/-- No worker has reported yet. -/
def Fleet.empty : Fleet where
  workers := ∅
  worker _ := none

/-- The keys a script run at `now` sees: an expired hash is gone. -/
def Fleet.live (s : Fleet) (now : ℤ) : Fleet :=
  { s with worker := fun id ↦ (s.worker id).filter fun e ↦ decide (now < e.expireAt) }

/-- `heartbeat.lua`. A `PEXPIRE` with a TTL that is not positive deletes the key. -/
def Script.heartbeat (s : Fleet) (now : ℤ) (h : WorkerHash) (ttl : ℤ) : Fleet where
  workers := Table.select (fun score ↦ decide (now - ttl < score)) (s.workers.insert h.id now)
  worker := Function.update s.worker h.id
    (if ttl ≤ 0 then none else some ⟨{ h with lastBeat := now }, now + ttl⟩)

/-- The arguments of the script. -/
def workerHash (w : WorkerInfo) : WorkerHash where
  id := w.id
  host := w.host
  pid := w.pid
  queues := String.intercalate "," w.queues
  concurrency := w.concurrency
  inFlight := w.inFlight
  startedAt := msFromTime w.startedAt
  lastBeat := 0

/-- `Heartbeat`. -/
def heartbeat (s : Fleet) (now : ℤ) (w : WorkerInfo) (ttl : Duration) : Except Err Unit × Fleet :=
  if w.id = "" then (.error (.invalidTask "empty worker ID"), s)
  else if ttl ≤ 0 then (.error (.invalidTask "heartbeat ttl must be positive"), s)
  else (.ok (), Script.heartbeat s now (workerHash w) (milliseconds ttl))

/-- A heartbeat: the server time in milliseconds, what the worker reports, and its TTL. -/
structure Beat where
  now : ℤ
  info : WorkerInfo
  ttl : Duration

namespace Beat

/-- The TTL as the script sees it. -/
def ms (c : Beat) : ℤ := milliseconds c.ttl

/-- The hash the heartbeat leaves. -/
def entry (c : Beat) : WorkerEntry := ⟨{ workerHash c.info with lastBeat := c.now }, c.now + c.ms⟩

end Beat

/-- The workers of a fleet under any sequence of heartbeats. -/
def fleet : Machine Fleet Beat where
  init := .empty
  next s c := (heartbeat (s.live c.now) c.now c.info c.ttl).2

/-- The runs of the script: workers have IDs, TTLs are positive and whole milliseconds, and the
server's clock does not go back. -/
structure Reporting (h : List (Turn Fleet Beat)) (_ : Fleet) (c : Beat) : Prop where
  named : c.info.id ≠ ""
  positive : 0 < c.ttl
  whole : millisecond ∣ c.ttl
  clock : ∀ t ∈ h, t.input.now ≤ c.now

/-- Every worker whose hash has not expired is in the set, with its last beat. -/
def Fleet.Listed (s : Fleet) (now : ℤ) : Prop :=
  ∀ id e, (s.live now).worker id = some e → s.workers.lookup id = some e.hash.lastBeat

/-- Of the heartbeats of a run: `t` is the last one of its worker, and `newer` came after it. -/
def LastBeat (h newer : List (Turn Fleet Beat)) (t : Turn Fleet Beat) : Prop :=
  (∃ older, h = newer ++ t :: older) ∧ ∀ u ∈ newer, u.input.info.id ≠ t.input.info.id

/-- Nobody who reported after the beat `t` prunes it: each of them did so before its own TTL had
passed since then. -/
def Spared (newer : List (Turn Fleet Beat)) (t : Turn Fleet Beat) : Prop :=
  ∀ u ∈ newer, u.input.now < t.input.now + u.input.ms

variable {h newer : List (Turn Fleet Beat)} {s : Fleet} {c : Beat} {t u : Turn Fleet Beat}
  {now : ℤ} {id : String}

/-! ### One heartbeat -/

theorem Reporting.ms_pos (hok : Reporting h s c) : 0 < c.ms := by
  obtain ⟨k, hk⟩ := hok.whole
  have hpos := hok.positive
  have hms : c.ms = k := by
    rw [Beat.ms, milliseconds, hk]
    exact Int.mul_tdiv_cancel_left k (by decide)
  rw [hms]
  rw [hk] at hpos
  exact pos_of_mul_pos_right hpos (by decide)

/-- **What a heartbeat does to the set**: the caller is in with the time of the call, and another
worker stays if its last beat is not older than the caller's TTL. -/
theorem Reporting.lookup_workers (hok : Reporting h s c) (id : String) :
    (fleet.next s c).workers.lookup id =
      if id = c.info.id then some c.now
      else (s.workers.lookup id).filter fun score ↦ decide (c.now < score + c.ms) := by
  have hnext : (fleet.next s c).workers = Table.select (fun score ↦ decide (c.now - c.ms < score))
      (s.workers.insert c.info.id c.now) := by
    simp only [fleet, heartbeat, if_neg hok.named, if_neg hok.positive.not_ge]
    rfl
  have hpos := hok.ms_pos
  rw [hnext, Table.lookup_select, Table.lookup_insert_eq]
  split_ifs with hid
  · rw [Option.filter_some, if_pos (decide_eq_true (by omega))]
  · refine congrArg (fun p ↦ (s.workers.lookup id).filter p) (funext fun score ↦ ?_)
    exact decide_eq_decide.2 (by omega)

/-- And to the hashes: the caller's is written, and any other is left until it expires. -/
theorem Reporting.worker_next (hok : Reporting h s c) (id : String) :
    (fleet.next s c).worker id =
      if id = c.info.id then some c.entry else (s.live c.now).worker id := by
  have hnext : (fleet.next s c).worker =
      Function.update (s.live c.now).worker c.info.id (some c.entry) := by
    simp only [fleet, heartbeat, if_neg hok.named, if_neg hok.positive.not_ge, Script.heartbeat]
    rw [if_neg (show ¬ milliseconds c.ttl ≤ 0 from hok.ms_pos.not_ge)]
    rfl
  rw [hnext, Function.update_apply]

/-! ### Runs -/

theorem lastBeat_cons : LastBeat (u :: h) newer t ↔
    newer = [] ∧ t = u ∨
      ∃ newer', newer = u :: newer' ∧ u.input.info.id ≠ t.input.info.id ∧ LastBeat h newer' t := by
  constructor
  · rintro ⟨⟨older, heq⟩, hother⟩
    rcases newer with - | ⟨v, newer'⟩
    · exact .inl ⟨rfl, (List.cons.inj heq).1.symm⟩
    · obtain ⟨rfl, htail⟩ := List.cons.inj heq
      exact .inr ⟨newer', rfl, hother u List.mem_cons_self, ⟨older, htail⟩,
        fun v hv ↦ hother v (List.mem_cons_of_mem u hv)⟩
  · rintro (⟨rfl, rfl⟩ | ⟨newer', rfl, hne, ⟨older, rfl⟩, hother⟩)
    · exact ⟨⟨h, rfl⟩, fun _ hv ↦ nomatch hv⟩
    · exact ⟨⟨older, rfl⟩, List.forall_mem_cons.2 ⟨hne, hother⟩⟩

theorem spared_cons :
    Spared (u :: newer) t ↔ u.input.now < t.input.now + u.input.ms ∧ Spared newer t :=
  List.forall_mem_cons

/-- A worker that reported has a last beat. -/
theorem exists_lastBeat (ht : ∃ t ∈ h, t.input.info.id = id) :
    ∃ newer t, LastBeat h newer t ∧ t.input.info.id = id := by
  induction h with
  | nil => simp at ht
  | cons u h ih =>
    by_cases hu : u.input.info.id = id
    · exact ⟨[], u, lastBeat_cons.2 (.inl ⟨rfl, rfl⟩), hu⟩
    · obtain ⟨t, ht, hid⟩ := ht
      have htail : ∃ t ∈ h, t.input.info.id = id :=
        ⟨t, (List.mem_cons.1 ht).resolve_left fun htu ↦ hu (htu ▸ hid), hid⟩
      obtain ⟨newer, t, hlast, hid⟩ := ih htail
      exact ⟨u :: newer, t, lastBeat_cons.2 (.inr ⟨newer, rfl, fun h ↦ hu (h.trans hid), hlast⟩),
        hid⟩

/-- What the keys say about a run: a worker is in the set with its last beat unless somebody pruned
it since, and its hash is there until the TTL of its last beat has passed. -/
structure Tracks (h : List (Turn Fleet Beat)) (s : Fleet) : Prop where
  silent : ∀ id, (∀ t ∈ h, t.input.info.id ≠ id) → s.worker id = none
  score : ∀ newer t, LastBeat h newer t → ∀ x,
    s.workers.lookup t.input.info.id = some x ↔ x = t.input.now ∧ Spared newer t
  hash : ∀ newer t, LastBeat h newer t → ∀ now, (∀ u ∈ h, u.input.now ≤ now) → ∀ e,
    (s.live now).worker t.input.info.id = some e ↔ e = t.input.entry ∧ now < e.expireAt

theorem live_worker_iff {e : WorkerEntry} :
    (s.live now).worker id = some e ↔ s.worker id = some e ∧ now < e.expireAt := by
  rw [Fleet.live, Option.filter_eq_some_iff, decide_eq_true_eq]

theorem Tracks.step (htracks : Tracks h s) (hok : Reporting h s c) :
    Tracks (⟨s, c⟩ :: h) (fleet.next s c) where
  silent id hother := by
    obtain ⟨hne, hother⟩ := List.forall_mem_cons.1 hother
    rw [hok.worker_next, if_neg (Ne.symm hne)]
    exact Option.filter_eq_none_iff.2 fun e he ↦ by simp [htracks.silent id hother] at he
  score newer t hlast x := by
    rw [hok.lookup_workers]
    rcases lastBeat_cons.1 hlast with ⟨rfl, rfl⟩ | ⟨newer, rfl, hne, hlast⟩
    · rw [if_pos rfl, Option.some.injEq, eq_comm]
      exact (and_iff_left fun _ hu ↦ nomatch hu).symm
    · rw [if_neg (Ne.symm hne), Option.filter_eq_some_iff, htracks.score newer t hlast,
        decide_eq_true_eq, spared_cons, and_assoc, and_congr_right_iff]
      rintro rfl
      exact and_comm
  hash newer t hlast now hclock e := by
    obtain ⟨hnow, hclock⟩ := List.forall_mem_cons.1 hclock
    rw [live_worker_iff, hok.worker_next]
    rcases lastBeat_cons.1 hlast with ⟨rfl, rfl⟩ | ⟨newer, rfl, hne, hlast⟩
    · rw [if_pos rfl, Option.some.injEq, eq_comm]
    · rw [if_neg (Ne.symm hne), htracks.hash newer t hlast c.now hok.clock, and_assoc,
        and_congr_right_iff]
      intro _
      exact and_iff_right_of_imp hnow.trans_lt

theorem tracks_of_run (hrun : fleet.Run Reporting h s) : Tracks h s := by
  refine hrun.invariant (P := Tracks) ⟨fun _ _ ↦ rfl, ?_, ?_⟩ fun h s c _ htracks hok ↦
    htracks.step hok
  · rintro newer t ⟨⟨older, hnil⟩, -⟩
    simp at hnil
  · rintro newer t ⟨⟨older, hnil⟩, -⟩
    simp at hnil

/-- Live workers are listed if nobody pruned them. -/
theorem Tracks.listed (htracks : Tracks h s) (hclock : ∀ t ∈ h, t.input.now ≤ now)
    (hspared : ∀ newer t, LastBeat h newer t → now < t.input.now + t.input.ms → Spared newer t) :
    s.Listed now := by
  intro id e he
  have hreported : ∃ t ∈ h, t.input.info.id = id := by
    by_contra hnone
    push Not at hnone
    have hworker := (live_worker_iff.1 he).1
    rw [htracks.silent id hnone] at hworker
    cases hworker
  obtain ⟨newer, t, hlast, rfl⟩ := exists_lastBeat hreported
  obtain ⟨rfl, halive⟩ := (htracks.hash newer t hlast now hclock e).1 he
  exact (htracks.score newer t hlast _).2 ⟨rfl, hspared newer t hlast halive⟩

/-- A fleet that reports with one TTL stays listed: while a hash lives, its TTL has not passed. -/
theorem listed_of_uniform (hrun : fleet.Run Reporting h s) (hclock : ∀ t ∈ h, t.input.now ≤ now)
    (huniform : ∀ t ∈ h, ∀ u ∈ h, t.input.ttl = u.input.ttl) : s.Listed now := by
  refine (tracks_of_run hrun).listed hclock fun newer t hlast halive u hu ↦ ?_
  obtain ⟨older, rfl⟩ := hlast.1
  have hmem : u ∈ newer ++ t :: older := List.mem_append_left _ hu
  have hms : t.input.ms = u.input.ms := congrArg milliseconds (huniform t (by simp) u hmem)
  have hle := hclock u hmem
  omega

/-- **When live workers stay listed**: for every worker whose hash is still there, everybody who
reported after it did so before its own TTL had passed since the worker's last beat. -/
theorem live_workers_listed_iff (hrun : fleet.Run Reporting h s)
    (hclock : ∀ t ∈ h, t.input.now ≤ now) :
    s.Listed now ↔ ∀ newer t, LastBeat h newer t → now < t.input.now + t.input.ms →
      Spared newer t := by
  have htracks := tracks_of_run hrun
  refine ⟨fun hlisted newer t hlast halive ↦ ?_, htracks.listed hclock⟩
  have hhash := (htracks.hash newer t hlast now hclock _).2 ⟨rfl, halive⟩
  exact ((htracks.score newer t hlast _).1 (hlisted _ _ hhash)).2

/-- A second worker with a longer TTL does not prune the first. -/
theorem live_workers_listed_iff_longer : ∃ h s, fleet.Run Reporting h s ∧ h.length = 2 ∧
    s.Listed 1400 ∧ (∃ e, (s.live 1400).worker "fast" = some e) := by
  let info (id : String) : WorkerInfo := ⟨id, "", 0, [], 1, 0, 0, 0⟩
  have hrun : fleet.Run Reporting _ _ :=
    .step ⟨1400, info "slow", heartbeatTTL (30 * 10 ^ 9)⟩
      (.step ⟨0, info "fast", heartbeatTTL (10 ^ 9)⟩ .start
        ⟨by decide, by decide, by decide, by simp⟩)
      ⟨by decide, by decide, by decide, by simp⟩
  refine ⟨_, _, hrun, rfl, (live_workers_listed_iff hrun (by simp)).2 ?_, _, rfl⟩
  intro newer t hlast _
  rcases lastBeat_cons.1 hlast with ⟨rfl, rfl⟩ | ⟨newer, rfl, -, hlast⟩
  · exact fun _ hu ↦ nomatch hu
  · rcases lastBeat_cons.1 hlast with ⟨rfl, rfl⟩ | ⟨newer, rfl, -, ⟨older, hnil⟩, -⟩
    · exact spared_cons.2 ⟨by decide, fun _ hu ↦ nomatch hu⟩
    · simp at hnil

/-- Two servers, with visibility timeouts of a second and of half a minute. The first reports with a
TTL of 1.5 s, and takes the second off the list two seconds after it reported with a TTL of 15 s. -/
theorem live_worker_pruned : ∃ h s, fleet.Run Reporting h s ∧
    (∀ t ∈ h, t.input.ttl =
      heartbeatTTL (if t.input.info.id = "slow" then 30 * 10 ^ 9 else 10 ^ 9)) ∧
    (∃ e, (s.live 2000).worker "slow" = some e ∧ e.hash.lastBeat = 0) ∧
    s.workers.lookup "slow" = none := by
  let info (id : String) : WorkerInfo := ⟨id, "", 0, [], 1, 0, 0, 0⟩
  have hrun : fleet.Run Reporting _ _ :=
    .step ⟨2000, info "fast", heartbeatTTL (10 ^ 9)⟩
      (.step ⟨0, info "slow", heartbeatTTL (30 * 10 ^ 9)⟩ .start
        ⟨by decide, by decide, by decide, by simp⟩)
      ⟨by decide, by decide, by decide, by simp⟩
  exact ⟨_, _, hrun, by simp [info], ⟨_, rfl, rfl⟩, by decide⟩

end Redis

end TaskQueue
