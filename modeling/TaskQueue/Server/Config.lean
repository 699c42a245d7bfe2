import TaskQueue.Backoff
import TaskQueue.Cron.Parse
import TaskQueue.Queues
import TaskQueue.Scheduler.InMemory

/-!
# What a worker is built from

`NewServer` of `server.go` and `compile` of `cron.go`: the checks a configuration has to pass, the
defaults that are filled in, and the queue selector and the compiled cron entries a server starts
with.

`NewServer` bounds the weights from below and not from above. The selector adds them up in an `int`,
so whether its calls work depends on the sum (`queue_selection_iff`).
-/

namespace TaskQueue

/-! ### Configurations -/

/-- `CronEntry`: a recurring job definition. -/
structure CronEntry where
  id : String
  spec : String
  type : String
  payload : List UInt8
  queue : String
  maxAttempts : ℤ

/-- `Config`, but for the logger; `none` is nil. -/
structure ServerConfig where
  queues : List String
  weights : Option (Table String Int64)
  strictPriority : Bool
  concurrency : ℤ
  visibilityTimeout : Duration
  shutdownTimeout : Duration
  /-- `Backoff.Next` -/
  backoff : Option (Int64 → Option Int64)
  workerID : String
  cron : List CronEntry

/-- A configuration that names queues and weights and nothing else. -/
def ServerConfig.plain (queues : List String) (weights : Option (Table String Int64)) :
    ServerConfig where
  queues := queues
  weights := weights
  strictPriority := false
  concurrency := 0
  visibilityTimeout := 0
  shutdownTimeout := 0
  backoff := none
  workerID := ""
  cron := []

/-- Which of the optional interfaces a broker implements. -/
structure Capabilities where
  maintenance : Bool
  cronStore : Bool

/-- What `NewServer` gets from its environment. -/
structure Environment where
  /-- `time.ParseDuration` -/
  parseDuration : List Char → Except String Duration
  /-- `rand.Int64N` -/
  int64N : Backoff.RandFunc
  /-- What `generateWorkerID` returns. -/
  workerID : String

/-- The errors of `compile`, which wrap `ErrInvalidTask`. -/
inductive EntryError
  /-- "cron entry has no ID" -/
  | noID
  /-- "cron entry ... has no task type" -/
  | noType (id : String)
  /-- "cron entry ...: " and the error of `cron.Parse` -/
  | badSpec (id : String) (err : Cron.ParseError)

/-- The errors of `NewServer`. -/
inductive ConfigError
  /-- "taskq: nil broker" -/
  | nilBroker
  /-- "taskq: Config.Queues must name at least one queue" -/
  | noQueues
  /-- "taskq: Config.Queues contains an empty queue name" -/
  | emptyQueue
  /-- "taskq: Config.Queues lists ... twice" -/
  | repeatedQueue (q : String)
  /-- "taskq: Config.Weights names ..., which is not in Config.Queues" -/
  | unknownQueue (q : String)
  /-- "taskq: Config.Weights[...] = ..., must be at least 1" -/
  | lowWeight (q : String) (w : Int64)
  | entry (err : EntryError)
  /-- "taskq: duplicate cron entry ID ..." -/
  | repeatedEntry (id : String)
  /-- "taskq: Config.Cron was set but the broker does not implement taskq.CronStore" -/
  | noCronStore
  /-- "taskq: Config.Cron requires a broker implementing taskq.Maintenance for leader election" -/
  | noMaintenance

/-- `DefaultQueue` -/
def defaultQueue : String := "default"

/-- `DefaultConcurrency` -/
def defaultConcurrency : ℤ := 10

/-- `DefaultVisibilityTimeout` -/
def defaultVisibilityTimeout : Duration := 30 * 10 ^ 9

/-- `DefaultShutdownTimeout` -/
def defaultShutdownTimeout : Duration := 30 * 10 ^ 9

/-- What is not set. -/
def orDefaultQueue (q : String) : String := if q = "" then defaultQueue else q

theorem orDefaultQueue_ne (q : String) : orDefaultQueue q ≠ "" := by
  rw [orDefaultQueue]
  split_ifs with hq
  · decide
  · exact hq

/-- `compile` -/
def compile (env : Environment) (e : CronEntry) : Except EntryError Scheduler.InMemory.CronEntry :=
  if e.id = "" then .error .noID
  else if htype : e.type = "" then .error (.noType e.id)
  else
    match Cron.parse env.parseDuration e.spec.toList with
    | .error err => .error (.badSpec e.id err)
    | .ok spec =>
      .ok {
        queue := orDefaultQueue e.queue
        type := e.type
        payload := e.payload
        maxAttempts := if e.maxAttempts ≤ 0 then defaultMaxAttempts else e.maxAttempts
        schedule := spec.next
        queue_ne := orDefaultQueue_ne e.queue
        type_ne := htype
        spec := spec
        schedule_eq := rfl }

/-! ### NewServer -/

/-- The loop over `Config.Queues`, with the names seen so far. -/
def checkQueues : List String → List String → Except ConfigError Unit
  | [], _ => .ok ()
  | q :: queues, seen =>
    if q = "" then .error .emptyQueue
    else if q ∈ seen then .error (.repeatedQueue q)
    else checkQueues queues (q :: seen)

/-- The loop over `Config.Weights`. -/
def checkWeights (queues : List String) : List (Σ _ : String, Int64) → Except ConfigError Unit
  | [] => .ok ()
  | e :: entries =>
    if e.1 ∉ queues then .error (.unknownQueue e.1)
    else if e.2 < 1 then .error (.lowWeight e.1 e.2)
    else checkWeights queues entries

/-- The loop over `Config.Cron`, with the entries compiled so far. -/
def compileAll (env : Environment) : List CronEntry →
    Table String Scheduler.InMemory.CronEntry →
    Except ConfigError (Table String Scheduler.InMemory.CronEntry)
  | [], entries => .ok entries
  | e :: rest, entries =>
    match compile env e with
    | .error err => .error (.entry err)
    | .ok ce =>
      if (entries.lookup e.id).isSome then .error (.repeatedEntry e.id)
      else compileAll env rest (entries.insert e.id ce)

/-- The defaults `NewServer` fills in. -/
def ServerConfig.filled (cfg : ServerConfig) (env : Environment) : ServerConfig :=
  { cfg with
    concurrency := if cfg.concurrency ≤ 0 then defaultConcurrency else cfg.concurrency
    visibilityTimeout :=
      if cfg.visibilityTimeout ≤ 0 then defaultVisibilityTimeout else cfg.visibilityTimeout
    shutdownTimeout :=
      if cfg.shutdownTimeout ≤ 0 then defaultShutdownTimeout else cfg.shutdownTimeout
    backoff := some (cfg.backoff.getD (Backoff.Exponential.next ⟨0, 0, none, none⟩ env.int64N))
    workerID := if cfg.workerID = "" then env.workerID else cfg.workerID }

/-- What a server starts with. -/
structure ServerSetup where
  cfg : ServerConfig
  queues : QueueSelector
  entries : Table String Scheduler.InMemory.CronEntry

/-- `NewServer`; `none` is a nil broker. -/
def newServer (env : Environment) (b : Option Capabilities) (cfg : ServerConfig) :
    Except ConfigError ServerSetup :=
  match b with
  | none => .error .nilBroker
  | some b =>
    if cfg.queues = [] then .error .noQueues
    else do
      checkQueues cfg.queues []
      checkWeights cfg.queues ((cfg.weights.map AList.entries).getD [])
      let entries ← compileAll env cfg.cron ∅
      if entries.entries ≠ [] ∧ b.cronStore = false then .error .noCronStore
      else if entries.entries ≠ [] ∧ b.maintenance = false then .error .noMaintenance
      else
        .ok {
          cfg := cfg.filled env
          queues := newQueueSelector cfg.queues cfg.weights cfg.strictPriority
          entries := entries }

/-! ### What is accepted -/

theorem checkQueues_ok {queues seen : List String} (h : checkQueues queues seen = .ok ()) :
    queues.Nodup ∧ ∀ q ∈ queues, q ≠ "" ∧ q ∉ seen := by
  induction queues generalizing seen with
  | nil => simp
  | cons q queues ih =>
    rw [checkQueues] at h
    split_ifs at h with hempty hseen
    obtain ⟨hnodup, hrest⟩ := ih h
    refine ⟨List.nodup_cons.2 ⟨fun hmem ↦ ?_, hnodup⟩, ?_⟩
    · exact (hrest q hmem).2 List.mem_cons_self
    · intro q' hq'
      rcases List.mem_cons.1 hq' with rfl | hq'
      · exact ⟨hempty, hseen⟩
      · exact (hrest q' hq').imp_right fun hnew hold ↦ hnew (List.mem_cons_of_mem q hold)

theorem checkWeights_ok {queues : List String} {entries : List (Σ _ : String, Int64)}
    (h : checkWeights queues entries = .ok ()) : ∀ e ∈ entries, 1 ≤ e.2 := by
  induction entries with
  | nil => simp
  | cons e entries ih =>
    rw [checkWeights] at h
    split_ifs at h with hunknown hlow
    intro e' he'
    rcases List.mem_cons.1 he' with rfl | he'
    · exact Int64.not_lt.1 hlow
    · exact ih h e' he'

/-- **What `NewServer` accepts** has passed every check, and is what the server is built from. -/
theorem of_newServer {env : Environment} {b : Option Capabilities} {cfg : ServerConfig}
    {srv : ServerSetup} (h : newServer env b cfg = .ok srv) :
    ∃ entries, checkQueues cfg.queues [] = .ok () ∧
      checkWeights cfg.queues ((cfg.weights.map AList.entries).getD []) = .ok () ∧
      compileAll env cfg.cron ∅ = .ok entries ∧
      srv = ⟨cfg.filled env, newQueueSelector cfg.queues cfg.weights cfg.strictPriority,
        entries⟩ := by
  rcases b with - | b
  · cases h
  rw [newServer] at h
  split_ifs at h
  obtain ⟨⟨⟩, hqueues, h⟩ := Cron.exists_of_bind_eq_ok h
  obtain ⟨⟨⟩, hweights, h⟩ := Cron.exists_of_bind_eq_ok h
  obtain ⟨entries, hentries, h⟩ := Cron.exists_of_bind_eq_ok h
  split_ifs at h
  exact ⟨entries, hqueues, hweights, hentries, (Except.ok.inj h).symm⟩

/-- **What an accepted configuration is like**: distinct, nonempty names and positive weights. -/
theorem newServer_ok {env : Environment} {b : Option Capabilities} {cfg : ServerConfig}
    {srv : ServerSetup} (h : newServer env b cfg = .ok srv) :
    srv.queues = newQueueSelector cfg.queues cfg.weights cfg.strictPriority ∧ cfg.queues.Nodup ∧
      (∀ q ∈ cfg.queues, q ≠ "") ∧ ∀ q ∈ cfg.queues, 1 ≤ weightOf cfg.weights q := by
  obtain ⟨entries, hqueues, hweights, -, rfl⟩ := of_newServer h
  obtain ⟨hnodup, hnames⟩ := checkQueues_ok hqueues
  refine ⟨rfl, hnodup, fun q hq ↦ (hnames q hq).1, fun q _ ↦ ?_⟩
  rw [weightOf]
  rcases hm : cfg.weights with - | m
  · exact (by decide : (1 : Int64) ≤ 1)
  · rw [hm] at hweights
    rcases hw : m.lookup q with - | w
    · simp [hw]
    · simpa [hw] using checkWeights_ok hweights ⟨q, w⟩ (AList.mem_lookup_iff.1 hw)

theorem compileAll_ok {env : Environment} {rest : List CronEntry}
    {entries entries' : Table String Scheduler.InMemory.CronEntry}
    (h : compileAll env rest entries = .ok entries') (hnamed : entries.lookup "" = none) :
    entries'.lookup "" = none := by
  induction rest generalizing entries with
  | nil =>
    obtain rfl := Except.ok.inj h
    exact hnamed
  | cons e rest ih =>
    rw [compileAll] at h
    rcases hce : compile env e with err | ce
    · rw [hce] at h
      cases h
    · rw [hce] at h
      dsimp only at h
      split_ifs at h
      refine ih h ?_
      rw [Table.lookup_insert_eq, if_neg, hnamed]
      intro hid
      rw [compile, if_pos hid.symm] at hce
      cases hce

/-- The entries a server knows, by ID. -/
def ServerSetup.known (srv : ServerSetup) : Scheduler.Entries :=
  fun id ↦ (srv.entries.lookup id).map Scheduler.InMemory.CronEntry.toCompiledEntry

/-- No server knows an entry without an ID. -/
theorem known_empty {env : Environment} {b : Option Capabilities} {cfg : ServerConfig}
    {srv : ServerSetup} (h : newServer env b cfg = .ok srv) : srv.known "" = none := by
  obtain ⟨entries, -, -, hentries, rfl⟩ := of_newServer h
  rw [ServerSetup.known, compileAll_ok hentries rfl, Option.map_none]

/-- Every schedule a server knows fires strictly later than it is asked for, if at all. -/
theorem ServerSetup.lt_schedule {srv : ServerSetup} {id : String} {ce : Scheduler.CompiledEntry}
    (hknown : srv.known id = some ce) {t : Time} (hnext : ce.schedule t ≠ zeroTime) :
    t < ce.schedule t := by
  obtain ⟨e, -, rfl⟩ := Option.map_eq_some_iff.1 hknown
  rw [e.schedule_eq] at hnext ⊢
  exact Cron.Schedule.lt_next hnext

/-! ### Queue selection -/

open QueueSelector (intN InRange calls exactSum)

/-- The calls of a selector work: whatever the draws, they return permutations of the queues without
a panic, and the weight that remains is at every stage the exact weight of the pool. -/
def QueueSelector.Orderly (s : QueueSelector) (queues : List String) : Prop :=
  ∀ ρ, InRange ρ → ∀ n k, ∃ orders s' k', calls (intN ρ) n s k = some ((orders, s'), k') ∧
    orders.length = n ∧ (∀ order ∈ orders, order.Perm queues) ∧
    ∀ st, s'.Reached st → st.remaining.toInt = (st.pool.map fun i ↦ (s'.weight i).toInt).sum

/-- **Queue selection works exactly if the weights add up to an `int`**, or there is nothing to
select. -/
theorem queue_selection_iff {env : Environment} {b : Option Capabilities} {cfg : ServerConfig}
    {srv : ServerSetup} (hok : newServer env b cfg = .ok srv) :
    srv.queues.Orderly cfg.queues ↔ cfg.strictPriority = true ∨ cfg.queues.length < 2 ∨
      (cfg.queues.map fun q ↦ (weightOf cfg.weights q).toInt).sum < 2 ^ 63 := by
  obtain ⟨hsel, -, -, hpos⟩ := newServer_ok hok
  rw [hsel]
  constructor
  · intro horderly
    by_contra hnot
    rw [not_or, not_or, Bool.not_eq_true] at hnot
    obtain ⟨hstrict, hlen, hsum⟩ := hnot
    -- the first stage of the first call has a total that fits, so it is not the sum
    obtain ⟨orders, s', k', hcalls, -, -, hexact⟩ :=
      horderly (fun _ _ ↦ 0) (fun _ _ hn ↦ ⟨Int64.le_refl 0, hn⟩) 0 0
    obtain rfl : s' = newQueueSelector cfg.queues cfg.weights cfg.strictPriority := by
      cases hcalls
      rfl
    have hstart := hexact _ (.start hstrict (not_lt.1 hlen))
    rw [show ((newQueueSelector cfg.queues cfg.weights cfg.strictPriority).start.pool.map fun i ↦
        ((newQueueSelector cfg.queues cfg.weights cfg.strictPriority).weight i).toInt).sum =
        exactSum cfg.queues cfg.weights from
      QueueSelector.sum_weight_newQueueSelector Int64.toInt, exactSum] at hstart
    exact hsum (hstart ▸ Int64.toInt_lt _)
  · intro hcond ρ hρ n k
    have hfits : cfg.strictPriority = true ∨ cfg.queues.length < 2 ∨
        (newQueueSelector cfg.queues cfg.weights cfg.strictPriority).Fits :=
      hcond.imp_right fun h ↦ h.imp_right (QueueSelector.fits_newQueueSelector hpos)
    obtain ⟨orders, s', k', hcalls, hlen, hperm, hsame⟩ :=
      QueueSelector.calls_intN (s := newQueueSelector cfg.queues cfg.weights cfg.strictPriority)
        hfits hρ n k
    refine ⟨orders, s', k', hcalls, hlen, hperm, fun st hst ↦ ?_⟩
    obtain ⟨hstrict, htwo⟩ := hst.undecided
    rw [hsame.strict] at hstrict
    rw [hsame.names] at htwo
    have hsel : (newQueueSelector cfg.queues cfg.weights cfg.strictPriority).Fits :=
      (hfits.resolve_left (by rw [Bool.not_eq_true]; exact hstrict)).resolve_left (not_lt.2 htwo)
    exact (hst.exact (hsame.fits hsel)).remaining_eq_sum (hsame.fits hsel)

/-- An environment for closed statements: no durations, and a source that always draws 0. -/
def Environment.fixed : Environment where
  parseDuration _ := .error "time: invalid duration"
  int64N n := if 0 < n then some 0 else none
  workerID := "worker"

/-- Two queues, one of them with the weight 6: the sum fits. -/
theorem queue_selection_iff_two :
    ∃ srv, newServer .fixed (some ⟨true, true⟩)
        (.plain ["a", "b"] (some ((∅ : Table String Int64).insert "a" 6))) = .ok srv ∧
      srv.queues.Orderly ["a", "b"] := by
  obtain ⟨srv, hok⟩ : ∃ srv, newServer .fixed (some ⟨true, true⟩)
      (.plain ["a", "b"] (some ((∅ : Table String Int64).insert "a" 6))) = .ok srv := ⟨_, rfl⟩
  exact ⟨srv, hok, (queue_selection_iff hok).2 (.inr (.inr (by decide)))⟩

/-- **Two queues of the largest weight**: `NewServer` accepts them, the total wraps to -2, and the
first call panics. -/
theorem queue_selection_panics :
    ∃ srv, newServer .fixed (some ⟨true, true⟩)
        (.plain ["a", "b"] (some (((∅ : Table String Int64).insert "a" 9223372036854775807).insert
          "b" 9223372036854775807))) = .ok srv ∧
      srv.queues.total = -2 ∧ (∀ ρ, calls (intN ρ) 1 srv.queues 0 = none) ∧
      ¬ srv.queues.Orderly ["a", "b"] := by
  refine ⟨_, rfl, by decide, fun ρ ↦ rfl, fun horderly ↦ ?_⟩
  obtain ⟨_, _, _, hcalls, -⟩ := horderly (fun _ _ ↦ 0) (fun _ _ hn ↦ ⟨Int64.le_refl 0, hn⟩) 1 0
  cases hcalls

end TaskQueue
