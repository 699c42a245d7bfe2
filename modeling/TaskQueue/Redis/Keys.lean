import TaskQueue.Data.Text

/-!
# The key layout

The key builders of `internal/rdb/rdb.go`, and the keys that Go passes to each script or that the
script puts together itself. Names of jobs, queues, unique keys, workers and leases are arbitrary
strings.

After the namespace every key is a word without a colon, alone or followed by a colon and an
argument. Such a text is cut at its **first** colon, which the argument has no part in, so it can be
read back (`Text.cut_join`). That the words are different where they need to be is then a finite
check (`parts_inj`).
-/

namespace TaskQueue.Redis

/-- What a key stands for. -/
inductive Key
  | job (id : String)
  | queue (q : String)
  | active (q : String)
  | unique (key : String)
  | delayed
  | retry
  | dead
  | queues
  | processed
  | failed
  | workers
  | worker (id : String)
  | lease (name : String)
  | cron
  deriving DecidableEq

/-- The types of Redis values. -/
inductive Kind
  | string
  | list
  | hash
  | set
  | zset
  deriving DecidableEq

/-- The type of the value under a key. -/
def Key.kind : Key → Kind
  | .job _ | .worker _ => .hash
  | .queue _ => .list
  | .active _ | .delayed | .retry | .dead | .workers | .cron => .zset
  | .queues => .set
  | .unique _ | .processed | .failed | .lease _ => .string

/-! ### Key builders -/

section

variable (ns : String)

def kJob (id : String) : String := ns ++ ":job:" ++ id

def kQueue (q : String) : String := ns ++ ":q:" ++ q

def kActive (q : String) : String := ns ++ ":active:" ++ q

def kUnique (key : String) : String := ns ++ ":unique:" ++ key

def kDelayed : String := ns ++ ":delayed"

def kRetry : String := ns ++ ":retry"

def kDead : String := ns ++ ":dead"

def kQueues : String := ns ++ ":queues"

def kProcessed : String := ns ++ ":stat:processed"

def kFailed : String := ns ++ ":stat:failed"

def kWorkers : String := ns ++ ":workers"

def kWorker (id : String) : String := ns ++ ":worker:" ++ id

def kLease (name : String) : String := ns ++ ":lease:" ++ name

def kCron : String := ns ++ ":cron"

def pJob : String := ns ++ ":job:"

def pActive : String := ns ++ ":active:"

/-- The third argument of `promote.lua`. -/
def pQueue : String := ns ++ ":q:"

/-- The text of a key. -/
def Key.text : Key → String
  | .job id => kJob ns id
  | .queue q => kQueue ns q
  | .active q => kActive ns q
  | .unique key => kUnique ns key
  | .delayed => kDelayed ns
  | .retry => kRetry ns
  | .dead => kDead ns
  | .queues => kQueues ns
  | .processed => kProcessed ns
  | .failed => kFailed ns
  | .workers => kWorkers ns
  | .worker id => kWorker ns id
  | .lease name => kLease ns name
  | .cron => kCron ns

/-! ### The keys of the scripts -/

/-- A run of a script, with the names in its keys and arguments and those it reads from Redis on the
way: the IDs it pops or finds in a set, and the queue fields of their hashes. -/
inductive ScriptRun
  | enqueue (id queue uniqueKey : String)
  | dequeue (queues ids : List String)
  | ack (id queue : String)
  | nack (id queue : String)
  | kill (id queue : String)
  | extend (jobs : List (String × String))
  | reap (queue : String) (ids : List String)
  | promote (jobs : List (String × String))
  | heartbeat (workerID : String)
  | leaseAcquire (name : String)
  | leaseRelease (name : String)
  | cronClaim

/-- The keys a script is passed or derives, each with the type its commands are for. -/
def ScriptRun.keys : ScriptRun → List (String × Kind)
  | .enqueue id queue uniqueKey =>
    [(kJob ns id, .hash), (kQueue ns queue, .list), (kDelayed ns, .zset), (kQueues ns, .set),
      -- a placeholder, which no command touches, stands in for the unique key of a job without one
      (kUnique ns (if uniqueKey = "" then "__none__" else uniqueKey), .string)]
  | .dequeue queues ids =>
    (queues.flatMap fun q ↦ [(kQueue ns q, .list), (kActive ns q, .zset)]) ++
      ids.map fun id ↦ (pJob ns ++ id, .hash)
  | .ack id queue => [(kJob ns id, .hash), (kProcessed ns, .string), (pActive ns ++ queue, .zset)]
  | .nack id queue =>
    [(kJob ns id, .hash), (kRetry ns, .zset), (kDead ns, .zset), (kFailed ns, .string),
      (pActive ns ++ queue, .zset)]
  | .kill id queue =>
    [(kJob ns id, .hash), (kDead ns, .zset), (kFailed ns, .string), (pActive ns ++ queue, .zset)]
  | .extend jobs =>
    jobs.flatMap fun j ↦ [(pJob ns ++ j.1, .hash), (pActive ns ++ j.2, .zset)]
  | .reap queue ids =>
    [(kActive ns queue, .zset), (kDead ns, .zset), (kQueue ns queue, .list),
      (kFailed ns, .string)] ++ ids.map fun id ↦ (pJob ns ++ id, .hash)
  | .promote jobs =>
    [(kDelayed ns, .zset), (kRetry ns, .zset)] ++
      jobs.flatMap fun j ↦ [(pJob ns ++ j.1, .hash), (pQueue ns ++ j.2, .list)]
  | .heartbeat workerID => [(kWorkers ns, .zset), (kWorker ns workerID, .hash)]
  | .leaseAcquire name | .leaseRelease name => [(kLease ns name, .string)]
  | .cronClaim => [(kCron ns, .zset)]

end

/-! ### Reading a key -/

/-- The word of a key and its argument. -/
def Key.parts : Key → List Char × Option (List Char)
  | .job id => (['j', 'o', 'b'], some id.toList)
  | .queue q => (['q'], some q.toList)
  | .active q => (['a', 'c', 't', 'i', 'v', 'e'], some q.toList)
  | .unique key => (['u', 'n', 'i', 'q', 'u', 'e'], some key.toList)
  | .delayed => (['d', 'e', 'l', 'a', 'y', 'e', 'd'], none)
  | .retry => (['r', 'e', 't', 'r', 'y'], none)
  | .dead => (['d', 'e', 'a', 'd'], none)
  | .queues => (['q', 'u', 'e', 'u', 'e', 's'], none)
  | .processed => (['s', 't', 'a', 't'], some ['p', 'r', 'o', 'c', 'e', 's', 's', 'e', 'd'])
  | .failed => (['s', 't', 'a', 't'], some ['f', 'a', 'i', 'l', 'e', 'd'])
  | .workers => (['w', 'o', 'r', 'k', 'e', 'r', 's'], none)
  | .worker id => (['w', 'o', 'r', 'k', 'e', 'r'], some id.toList)
  | .lease name => (['l', 'e', 'a', 's', 'e'], some name.toList)
  | .cron => (['c', 'r', 'o', 'n'], none)

variable {ns : String} {k k' : Key}

theorem Key.colon_notMem_parts (k : Key) : ':' ∉ k.parts.1 := by
  cases k <;> simp [Key.parts]

theorem Key.parts_inj (h : k.parts = k'.parts) : k = k' := by
  cases k <;> cases k' <;> simp_all [Key.parts, String.toList_inj]

/-- A key is the namespace, a colon, and its parts joined by a colon. -/
theorem Key.toList_text (k : Key) :
    (k.text ns).toList = ns.toList ++ ':' :: Text.join ':' k.parts := by
  cases k <;>
    simp [Key.text, Key.parts, Text.join, kJob, kQueue, kActive, kUnique, kDelayed, kRetry, kDead,
      kQueues, kProcessed, kFailed, kWorkers, kWorker, kLease, kCron]

/-- **A key determines what it stands for.** -/
theorem Key.text_injective (ns : String) : Function.Injective (Key.text ns) := by
  intro k k' h
  have hlist : Text.join ':' k.parts = Text.join ':' k'.parts := by
    have := congrArg String.toList h
    rw [toList_text, toList_text] at this
    exact (List.cons.inj (List.append_cancel_left this)).2
  refine parts_inj ?_
  rw [← Text.cut_join k.colon_notMem_parts, hlist, Text.cut_join k'.colon_notMem_parts]

theorem Key.text_inj : k.text ns = k'.text ns ↔ k = k' :=
  (Key.text_injective ns).eq_iff

/-! ### The scripts stay within the layout -/

/-- A key text with a type, as the layout has them. -/
def InLayout (ns : String) (a : String × Kind) : Prop := ∃ k : Key, (k.text ns, k.kind) = a

theorem Key.inLayout (k : Key) : InLayout ns (k.text ns, k.kind) := ⟨k, rfl⟩

/-- The layout has one type for each key. -/
theorem InLayout.kind_eq {a b : String × Kind} (ha : InLayout ns a) (hb : InLayout ns b)
    (heq : a.1 = b.1) : a.2 = b.2 := by
  obtain ⟨k, rfl⟩ := ha
  obtain ⟨k', rfl⟩ := hb
  exact congrArg Key.kind (Key.text_inj.1 heq)

/-- **The keys of the scripts are keys of the layout**, with the types of the layout: a key that a
script puts together is the one that Go builds from the same name. -/
theorem ScriptRun.inLayout_of_mem_keys (r : ScriptRun) {a : String × Kind}
    (ha : a ∈ r.keys ns) : InLayout ns a := by
  have hjob (id : String) : InLayout ns (pJob ns ++ id, .hash) := (Key.job id).inLayout
  have hactive (q : String) : InLayout ns (pActive ns ++ q, .zset) := (Key.active q).inLayout
  have hready (q : String) : InLayout ns (pQueue ns ++ q, .list) := (Key.queue q).inLayout
  cases r with
  | enqueue id queue uniqueKey =>
    simp only [keys, List.mem_cons, List.not_mem_nil, or_false] at ha
    obtain rfl | rfl | rfl | rfl | rfl := ha
    exacts [(Key.job id).inLayout, (Key.queue queue).inLayout, Key.delayed.inLayout,
      Key.queues.inLayout, (Key.unique _).inLayout]
  | dequeue queues ids =>
    simp only [keys, List.mem_append, List.mem_flatMap, List.mem_map, List.mem_cons,
      List.not_mem_nil, or_false] at ha
    obtain ⟨q, -, rfl | rfl⟩ | ⟨id, -, rfl⟩ := ha
    exacts [(Key.queue q).inLayout, (Key.active q).inLayout, hjob id]
  | ack id queue =>
    simp only [keys, List.mem_cons, List.not_mem_nil, or_false] at ha
    obtain rfl | rfl | rfl := ha
    exacts [(Key.job id).inLayout, Key.processed.inLayout, hactive queue]
  | nack id queue =>
    simp only [keys, List.mem_cons, List.not_mem_nil, or_false] at ha
    obtain rfl | rfl | rfl | rfl | rfl := ha
    exacts [(Key.job id).inLayout, Key.retry.inLayout, Key.dead.inLayout, Key.failed.inLayout,
      hactive queue]
  | kill id queue =>
    simp only [keys, List.mem_cons, List.not_mem_nil, or_false] at ha
    obtain rfl | rfl | rfl | rfl := ha
    exacts [(Key.job id).inLayout, Key.dead.inLayout, Key.failed.inLayout, hactive queue]
  | extend jobs =>
    simp only [keys, List.mem_flatMap, List.mem_cons, List.not_mem_nil, or_false] at ha
    obtain ⟨j, -, rfl | rfl⟩ := ha
    exacts [hjob j.1, hactive j.2]
  | reap queue ids =>
    simp only [keys, List.mem_append, List.mem_map, List.mem_cons, List.not_mem_nil,
      or_false] at ha
    obtain (rfl | rfl | rfl | rfl) | ⟨id, -, rfl⟩ := ha
    exacts [(Key.active queue).inLayout, Key.dead.inLayout, (Key.queue queue).inLayout,
      Key.failed.inLayout, hjob id]
  | promote jobs =>
    simp only [keys, List.mem_append, List.mem_flatMap, List.mem_cons, List.not_mem_nil,
      or_false] at ha
    obtain (rfl | rfl) | ⟨j, -, rfl | rfl⟩ := ha
    exacts [Key.delayed.inLayout, Key.retry.inLayout, hjob j.1, hready j.2]
  | heartbeat workerID =>
    simp only [keys, List.mem_cons, List.not_mem_nil, or_false] at ha
    obtain rfl | rfl := ha
    exacts [Key.workers.inLayout, (Key.worker workerID).inLayout]
  | leaseAcquire name | leaseRelease name =>
    rw [List.eq_of_mem_singleton ha]
    exact (Key.lease name).inLayout
  | cronClaim =>
    rw [List.eq_of_mem_singleton ha]
    exact Key.cron.inLayout

/-- **The key layout is unambiguous.** Whatever the namespace and the names are, two keys with one
text are the same key of the same name; the keys that the scripts put together are the ones that Go
builds; and no two scripts use one key as values of different types. -/
theorem key_layout_unambiguous (ns : String) :
    (∀ k k' : Key, k.text ns = k'.text ns → k = k') ∧
      (∀ id, pJob ns ++ id = kJob ns id) ∧
      (∀ q, pActive ns ++ q = kActive ns q) ∧
      (∀ q, pQueue ns ++ q = kQueue ns q) ∧
      (∀ r : ScriptRun, ∀ a ∈ r.keys ns, ∃ k : Key, (k.text ns, k.kind) = a) ∧
      ∀ r r' : ScriptRun, ∀ a ∈ r.keys ns, ∀ b ∈ r'.keys ns, a.1 = b.1 → a.2 = b.2 := by
  refine ⟨fun _ _ h ↦ Key.text_injective ns h, fun _ ↦ rfl, fun _ ↦ rfl, fun _ ↦ rfl,
    fun r _ ha ↦ r.inLayout_of_mem_keys ha, fun r r' a ha b hb heq ↦ ?_⟩
  exact (r.inLayout_of_mem_keys ha).kind_eq (r'.inLayout_of_mem_keys hb) heq

-- Near misses: names with colons, and a queue whose name continues another key.
example : kQueue "taskq" "ueues" ≠ kQueues "taskq" ∧ kWorker "taskq" "s" ≠ kWorkers "taskq" ∧
    kJob "taskq" "a:b" ≠ kJob "taskq" "a" := by
  decide

end TaskQueue.Redis
