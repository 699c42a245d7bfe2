import TaskQueue.Redis.Simulation

/-!
# The bytes refine the records

Every operation of the broker, down to the bytes that travel, against the operation on records: the
keys and arguments it builds are the ones its script is correct for, and the reply it takes apart is
the reply of the record-level operation. No command is run on a key of another type, no script
raises an error, and no reply has the wrong shape, for any arguments **in range** (`Sized`): a limit
that a double holds, durations that are `int64`s as Go's are, and times within some 285,000 years
of 1970. Outside of it the operations of the source do go wrong: a limit of `2 ^ 63 - 1` is written
in scientific notation, which Redis rejects.

There is one error that remains. A lease for less than a millisecond is a `SET` that Redis refuses,
and the operation on records says so, too.
-/

namespace TaskQueue.Redis

open Bulk Keyspace Lua
open Wire (Fits fields pairs luaArg)

/-- Run a command on the records. -/
def Records.exec (r : Records) (now : ℤ) (completedTTL : Duration) : Command → Response × Records
  | .job op =>
    (run completedTTL r.store now op).map .job fun s ↦ { r with store := s }
  | .lease (.acquire name owner ttl) =>
    (acquireLease r.leases now name owner ttl).map .acquired fun l ↦ { r with leases := l }
  | .lease (.release name owner) =>
    (releaseLease r.leases name owner).map .released fun l ↦ { r with leases := l }
  | .beat info ttl =>
    (heartbeat r.fleet now info ttl).map .beaten fun f ↦ { r with fleet := f }

/-- The arguments of a command are in range. -/
def Command.Sized : Command → Prop
  | .job (.enqueue _ _ none) => True
  | .job (.enqueue _ _ (some j)) =>
    Exact (msFromTime j.runAt) ∧ Int64 j.maxAttempts ∧ Int64 j.uniqueTTL
  | .job (.dequeue o) => Int64 o.visibilityTimeout
  | .job (.ack _ _) => True
  | .job (.nack _ _ retryAt _) => Exact (msFromTime retryAt)
  | .job (.kill _ _ _) => True
  | .job (.extend _ _ vt) => Int64 vt
  | .job (.reap _ limit) => limit ≤ 2 ^ 53
  | .job (.promote limit) => limit ≤ 2 ^ 53
  | .job (.scheduleCronIfAbsent _ fireAt) => Exact (unixMilli fireAt)
  | .job (.dueCron limit) => limit < 2 ^ 63
  | .job (.claimCron _ firedAt nextAt) => Exact (unixMilli firedAt) ∧ Exact (unixMilli nextAt)
  | .job (.removeCron _) => True
  | .lease (.acquire _ _ ttl) => Int64 ttl
  | .lease (.release _ _) => True
  | .beat _ ttl => Int64 ttl

/-- The wire-level result is the given one, and the keyspace it leaves represents the records. -/
def Yields {α : Type} (ns : String) (K₀ : Keyspace) (x : Except Wire.Fault α × Keyspace) (a : α)
    (r : Records) : Prop :=
  ∃ K', x = (.ok a, K') ∧ Rep ns K₀ K' r

variable {ns : String} {K₀ K : Keyspace} {r : Records} {micros : ℤ}

/-- An operation that answers without Redis. -/
theorem yields_self {α : Type} (hK : Rep ns K₀ K r) (a : α) :
    Yields ns K₀ (.ok a, K) a r := ⟨K, rfl, hK⟩

/-- An operation that runs a script and reads the reply. -/
theorem yields_map {α β : Type} {x : Prog α} {a : α} {r' : Records}
    {f : Except Keyspace.Error α → Except Wire.Fault β} {b : β} (hK : Rep ns K₀ K r)
    (hx : Does (Rep ns K₀) r x a r') (hf : f (.ok a) = .ok b) :
    Yields ns K₀ ((x.run K).map f id) b r' := by
  obtain ⟨K', hrun, hK'⟩ := hx K hK
  exact ⟨K', by rw [hrun, Prod.map_apply, hf]; rfl, hK'⟩

/-! ### Enqueue and Dequeue -/

theorem exact_uniqueTTL {j : Job} (hj : Int64 j.uniqueTTL) : Exact (uniqueTTL j) := by
  rw [uniqueTTL]
  split_ifs
  · exact exact_zero
  · refine exact_milliseconds ?_
    rw [Job.uniqueWindow]
    split_ifs
    · constructor <;> decide
    · exact hj

theorem int64_assigned {j : Job} (newID : String) (hj : Int64 j.maxAttempts) :
    Int64 (j.assigned newID).maxAttempts := by
  rw [Job.assigned]
  dsimp only
  split_ifs
  · constructor <;> decide
  · exact hj

theorem yields_enqueue (hK : Rep ns K₀ K r) (hclock : Clock micros) (newID : String) (wall : Time)
    (j : Option Job) (hsized : (Command.job (.enqueue newID wall j)).Sized) :
    Yields ns K₀ (Wire.enqueue ns micros K newID wall j)
      (Reply.of .stored (enqueue r.store (mstime micros) newID wall j).1)
      { r with store := (enqueue r.store (mstime micros) newID wall j).2 } := by
  rcases j with _ | j
  · exact yields_self hK _
  obtain ⟨hrun, hmax, hunique⟩ := hsized
  rw [Wire.enqueue, enqueue]
  by_cases hqueue : j.queue = ""
  · rw [if_pos hqueue, if_pos hqueue]
    exact yields_self hK _
  by_cases htype : j.type = ""
  · rw [if_neg hqueue, if_neg hqueue, if_pos htype, if_pos htype]
    exact yields_self hK _
  rw [if_neg hqueue, if_neg hqueue, if_neg htype, if_neg htype]
  obtain ⟨K', hwire, hK'⟩ := does_enqueue (j := j.assigned newID) hclock
    (int64_assigned newID hmax) hrun (exact_uniqueTTL hunique) K hK
  dsimp only
  rw [hwire]
  rcases hscript : Script.enqueue r.store (mstime micros) (jobHash (mstime micros)
    (j.assigned newID)) (uniqueTTL (j.assigned newID)) with ⟨existing | _, s'⟩
  · rw [hscript] at hK'
    refine ⟨K', ?_, hK'⟩
    simp [enqueueAnswer, Wire.slice, Wire.enqueueReply, Wire.toInt64, Wire.stringAt,
      Item.string?, Reply.of]
  · rw [hscript] at hK'
    exact ⟨K', rfl, hK'⟩

/-- A job that `dequeue.lua` returns was in the store, and has been claimed since. -/
theorem popJob_claimed {now vt : ℤ} {worker q : String} {bound : ℕ} {s : Store} {h : Hash}
    (hpop : (Script.popJob now worker vt q bound s).1 = some h) :
    ∃ id e, s.job id = some e ∧ h = Script.claimed now worker vt e.hash := by
  induction bound generalizing s with
  | zero => cases hpop
  | succ bound ih =>
    rw [Script.popJob] at hpop
    rcases hready : s.ready q with - | ⟨id, ids⟩
    · rw [hready] at hpop
      cases hpop
    · rw [hready] at hpop
      dsimp only at hpop
      rcases he : s.job id with _ | e
      · rw [he] at hpop
        exact ih (s := s.lpop q) hpop
      · rw [he] at hpop
        exact ⟨id, e, he, (Option.some.inj hpop).symm⟩

theorem dequeue_claimed {now vt : ℤ} {worker : String} {queues : List String} {s : Store} {h : Hash}
    (hscript : (Script.dequeue now worker vt queues s).1 = some h) :
    ∃ id e, s.job id = some e ∧ h = Script.claimed now worker vt e.hash := by
  induction queues generalizing s with
  | nil => cases hscript
  | cons q queues ih =>
    rw [Script.dequeue] at hscript
    rcases hpop : Script.popJob now worker vt q 20 s with ⟨_ | h', s'⟩
    · rw [hpop] at hscript
      obtain ⟨id, e, he, rfl⟩ := ih hscript
      exact ⟨id, e, job_of_popJob_none hpop ▸ he, rfl⟩
    · rw [hpop] at hscript
      exact popJob_claimed (congrArg Prod.fst hpop |>.trans hscript)

/-- **What `Dequeue` makes of the reply** is what it makes of the record. -/
theorem dequeueReply_array (listing : Listing) {h : Hash} (hfits : Fits h) :
    Wire.dequeueReply (.ok ((listing.list (fields h)).map .bulk)) =
      .ok (Reply.of .claimed (decodeJob h)) := by
  have hlists : (fields h).Lists (listing.list (fields h)) :=
    listing.lists _ ⟨_, Fields.lists_set (Wire.pairs_nodup h) (List.Perm.refl _)⟩
  have hitems : ((listing.list (fields h)).map Item.bulk).map Item.string? =
      (listing.list (fields h)).map some := by
    rw [List.map_map]
    rfl
  rw [Wire.dequeueReply, hitems]
  by_cases hid : h.id = ""
  · have hdecode : Wire.decodeJob ((listing.list (fields h)).map some) = .error .noID := by
      rw [Wire.decodeJob, List.length_map, Fields.even_of_lists hlists,
        Fields.collect_of_lists hlists]
      simp [fields, pairs, Fields.set, hid]
    rw [hdecode, decodeJob, if_pos hid]
    rfl
  · obtain ⟨j, hj, hdecode⟩ := Wire.decodeJob_fields hfits hid hlists
    rw [hdecode, hj]
    rfl

theorem yields_dequeue (hK : Rep ns K₀ K r) (hclock : Clock micros) (hcount : Counted r.store)
    (listing : Listing) (o : ClaimOpts) (hd : Int64 o.visibilityTimeout) :
    Yields ns K₀ (Wire.dequeue ns micros K listing o)
      (Reply.of .claimed (dequeue r.store (mstime micros) o).1)
      { r with store := (dequeue r.store (mstime micros) o).2 } := by
  rw [Wire.dequeue, dequeue, claimNext]
  by_cases hworker : o.workerID = ""
  · rw [if_pos hworker, if_pos hworker]
    exact yields_self hK _
  by_cases hvt : o.visibilityTimeout ≤ 0
  · rw [if_neg hworker, if_neg hworker, if_pos hvt, if_pos hvt]
    exact yields_self hK _
  by_cases hqueues : o.queues = []
  · rw [if_neg hworker, if_neg hworker, if_neg hvt, if_neg hvt, if_pos hqueues, if_pos hqueues]
    exact yields_self hK _
  rw [if_neg hworker, if_neg hworker, if_neg hvt, if_neg hvt, if_neg hqueues, if_neg hqueues]
  obtain ⟨K', hwire, hK'⟩ := does_dequeue hclock hd listing o.workerID o.queues hcount K hK
  dsimp only
  rw [hwire]
  rcases hscript : Script.dequeue (mstime micros) o.workerID (milliseconds o.visibilityTimeout)
    o.queues r.store with ⟨_ | h, s'⟩
  · rw [hscript] at hK'
    exact ⟨K', rfl, hK'⟩
  · rw [hscript] at hK'
    refine ⟨K', congrArg (·, K') (dequeueReply_array listing ?_), hK'⟩
    obtain ⟨id, e, he, rfl⟩ := dequeue_claimed (congrArg Prod.fst hscript)
    have hfits := hK.fits he
    have hnext : -2 ^ 63 ≤ e.hash.attempt + 1 ∧ e.hash.attempt + 1 < 2 ^ 63 := by
      have hlow := hfits.attempt.1
      have hlt := (hcount id e he).1
      omega
    exact { hfits with
      attempt := hnext
      startedAt := hclock.exact.int64
      deadline := (hclock.exact_add hd).int64 }

/-! ### Ack, Nack, Kill and Extend -/

/-- `fenceError` on a reply of the fence. -/
theorem fenceReply_refused (operation jobID workerID : String) (refusal : Script.Refusal) :
    Wire.fenceReply operation jobID workerID (.ok (refusalItems refusal)) =
      .ok (Reply.of (fun _ ↦ .done) (fenceError jobID workerID (.error refusal))) := by
  cases refusal with
  | notfound =>
    simp [refusalItems, Wire.fenceReply, Wire.toInt64, Wire.stringAt, Item.string?, fenceError,
      Reply.of]
  | lease state owner =>
    simp [refusalItems, Wire.fenceReply, Wire.toInt64, Wire.stringAt, Item.string?, fenceError,
      Reply.of]

theorem fenceReply_report (operation jobID workerID : String) (items : List Item)
    (res : Except Script.Refusal Unit) :
    Wire.fenceReply operation jobID workerID
        (Wire.slice (.ok (reportAnswer (.int 1 :: items) res))) =
      .ok (Reply.of (fun _ ↦ .done) (fenceError jobID workerID res)) := by
  rcases res with refusal | _
  · exact fenceReply_refused operation jobID workerID refusal
  · rfl

theorem yields_ack (hK : Rep ns K₀ K r) (htally : Tallied r.store) {ttl : Duration}
    (httl : Int64 ttl) (worker id : String) :
    Yields ns K₀ (Wire.ack ns micros K ttl worker id)
      (Reply.of (fun _ ↦ .done) (ack r.store (mstime micros) ttl worker id).1)
      { r with store := (ack r.store (mstime micros) ttl worker id).2 } := by
  rw [Wire.ack, ack]
  refine yields_map hK (does_ack httl htally) ?_
  exact fenceReply_report "ack" id worker [] _

theorem yields_nack (hK : Rep ns K₀ K r) (hclock : Clock micros) (htally : Tallied r.store)
    (worker id : String) {retryAt : Time} (hretry : Exact (msFromTime retryAt)) (reason : String) :
    Yields ns K₀ (Wire.nack ns micros K worker id retryAt reason)
      (Reply.of (fun _ ↦ .done) (nack r.store (mstime micros) worker id retryAt reason).1)
      { r with store := (nack r.store (mstime micros) worker id retryAt reason).2 } := by
  rw [Wire.nack, nack]
  obtain ⟨how, hdoes⟩ := does_nack worker id reason hclock hretry htally
  refine yields_map hK hdoes ?_
  exact fenceReply_report "nack" id worker [.bulk how] _

theorem yields_kill (hK : Rep ns K₀ K r) (hclock : Clock micros) (htally : Tallied r.store)
    (worker id reason : String) :
    Yields ns K₀ (Wire.kill ns micros K worker id reason)
      (Reply.of (fun _ ↦ .done) (kill r.store (mstime micros) worker id reason).1)
      { r with store := (kill r.store (mstime micros) worker id reason).2 } := by
  rw [Wire.kill, kill]
  refine yields_map hK (does_kill hclock htally) ?_
  exact fenceReply_report "kill" id worker [] _

theorem yields_extend (hK : Rep ns K₀ K r) (hclock : Clock micros) (worker : String)
    (ids : List String) {vt : Duration} (hvt : Int64 vt) :
    Yields ns K₀ (Wire.extend ns micros K worker ids vt)
      (Reply.of .lost (extend r.store (mstime micros) worker ids vt).1)
      { r with store := (extend r.store (mstime micros) worker ids vt).2 } := by
  rw [Wire.extend, extend]
  by_cases hneg : vt ≤ 0
  · rw [if_pos hneg, if_pos hneg]
    exact yields_self hK _
  by_cases hids : ids = []
  · rw [if_neg hneg, if_neg hneg, if_pos hids, if_pos hids]
    exact yields_self hK _
  rw [if_neg hneg, if_neg hneg, if_neg hids, if_neg hids]
  refine yields_map hK (does_extend hclock hvt ids) ?_
  have hlost : ∀ l : List String,
      (((l.map ofString).map Item.bulk).filterMap Item.string?).map text = l := by
    intro l
    simp [List.filterMap_map, Function.comp_def, Item.string?]
  simp only [Wire.slice, Wire.extendReply, hlost]
  rfl

/-! ### Maintenance -/

theorem yields_reap (hK : Rep ns K₀ K r) (hclock : Clock micros) (hcount : Counted r.store)
    (htally : Tallied r.store) (q : String) {limit : ℤ} (hlimit : limit ≤ 2 ^ 53) :
    Yields ns K₀ (Wire.reap ns micros K q limit)
      (Reply.of .count (reapQueue r.store (mstime micros) q limit).1)
      { r with store := (reapQueue r.store (mstime micros) q limit).2 } := by
  rw [Wire.reap, reapQueue]
  by_cases hneg : limit ≤ 0
  · rw [if_pos hneg, if_pos hneg]
    exact yields_self hK _
  rw [if_neg hneg, if_neg hneg, if_neg (by simp [Script.reads_of_le hlimit])]
  refine yields_map hK (does_reap hclock (by omega) (exact_iff.2 ⟨by omega, hlimit⟩) hcount
    htally) ?_
  rw [Wire.slice, Wire.reapReply, Wire.toInt64, Wire.toInt64, ← Nat.cast_add, Int.toNat_natCast]
  rfl

theorem yields_promote (hK : Rep ns K₀ K r) (hclock : Clock micros) {limit : ℤ}
    (hlimit : limit ≤ 2 ^ 53) :
    Yields ns K₀ (Wire.promote ns micros K limit)
      (Reply.of .count (promote r.store (mstime micros) limit).1)
      { r with store := (promote r.store (mstime micros) limit).2 } := by
  rw [Wire.promote, promote]
  by_cases hneg : limit ≤ 0
  · rw [if_pos hneg, if_pos hneg]
    exact yields_self hK _
  rw [if_neg hneg, if_neg hneg, if_neg (by simp [Script.reads_of_le hlimit])]
  refine yields_map hK (does_promote hclock (exact_iff.2 ⟨by omega, hlimit⟩)) ?_
  rw [Wire.int, Wire.promoteReply, Int.toNat_natCast]
  rfl

theorem yields_heartbeat (hK : Rep ns K₀ K r) (hclock : Clock micros) (w : WorkerInfo)
    {ttl : Duration} (httl : Int64 ttl) :
    Yields ns K₀ (Wire.heartbeat ns micros K w ttl)
      (heartbeat r.fleet (mstime micros) w ttl).1
      { r with fleet := (heartbeat r.fleet (mstime micros) w ttl).2 } := by
  rw [Wire.heartbeat, heartbeat]
  by_cases hid : w.id = ""
  · rw [if_pos hid, if_pos hid]
    exact yields_self hK _
  by_cases hneg : ttl ≤ 0
  · rw [if_neg hid, if_neg hid, if_pos hneg, if_pos hneg]
    exact yields_self hK _
  rw [if_neg hid, if_neg hid, if_neg hneg, if_neg hneg]
  exact yields_map hK (does_heartbeat hclock httl w) rfl

/-- The `SET` of a lease for no time at all is refused, and nothing has been written before it. -/
theorem leaseAcquire_refused (hK : Rep ns K₀ K r) {name owner : String} {ttl : Duration}
    (httl : Int64 ttl) (hshort : milliseconds ttl ≤ 0)
    (hfree : (r.leases name).all (fun l ↦ l.value = owner) = true) :
    (Lua.leaseAcquire micros [ofString (kLease ns name)]
      [ofString owner, decimal (milliseconds ttl)]).run K = (.error .invalidExpire, K) := by
  have hexact := exact_milliseconds httl
  have hnumber := tonumber_eq (K := K) hexact.int64
  rw [luaNumber_exact hexact] at hnumber
  have hset : (setPX (mstime micros) (key ns (.lease name)) (ofString owner)
      (decimal (milliseconds ttl))).run K = (.error .invalidExpire, K) :=
    setPX_of_nonpos hexact.int64.1 hshort
  refine (bind_ok (get_lease hK)).trans ?_
  refine (congrArg (fun x : Prog Answer ↦ x.run K) (if_pos (free_or_own_iff.2 hfree))).trans ?_
  refine (bind_ok hnumber).trans ?_
  rw [luaArg_exact hexact]
  exact bind_error hset

theorem yields_acquireLease (micros : ℤ) (hK : Rep ns K₀ K r) (name owner : String) {ttl : Duration}
    (httl : Int64 ttl) : ∃ K',
    Wire.acquireLease ns micros K name owner ttl =
      ((acquireLease r.leases (mstime micros) name owner ttl).1, K') ∧
    Rep ns K₀ K' { r with leases := (acquireLease r.leases (mstime micros) name owner ttl).2 } := by
  rw [Wire.acquireLease, acquireLease]
  by_cases hnames : name = "" ∨ owner = ""
  · rw [if_pos hnames, if_pos hnames]
    exact ⟨K, rfl, hK⟩
  by_cases hneg : ttl ≤ 0
  · rw [if_neg hnames, if_neg hnames, if_pos hneg, if_pos hneg]
    exact ⟨K, rfl, hK⟩
  rw [if_neg hnames, if_neg hnames, if_neg hneg, if_neg hneg]
  by_cases hrefused : (r.leases name).all (fun l ↦ l.value = owner) = true ∧ milliseconds ttl ≤ 0
  · have hscript : Script.leaseAcquire r.leases (mstime micros) name owner (milliseconds ttl) =
        (none, r.leases) := by
      rw [Script.leaseAcquire, if_pos hrefused.1, Script.setPX, if_pos hrefused.2]
    rw [hscript]
    refine ⟨K, ?_, hK⟩
    exact congrArg (Prod.map _ _) (leaseAcquire_refused hK httl hrefused.2 hrefused.1)
  · have hpos : (r.leases name).all (fun l ↦ l.value = owner) = true → 0 < milliseconds ttl :=
      fun hfree ↦ not_le.1 fun hle ↦ hrefused ⟨hfree, hle⟩
    have hheld : (Script.leaseAcquire r.leases (mstime micros) name owner (milliseconds ttl)).1 =
        some ((r.leases name).all fun l ↦ l.value = owner) := by
      rw [Script.leaseAcquire]
      by_cases hfree : (r.leases name).all (fun l ↦ l.value = owner) = true
      · rw [if_pos hfree, Script.setPX, if_neg (not_le.2 (hpos hfree)), hfree]
      · rw [if_neg hfree, Bool.eq_false_iff.2 hfree]
    obtain ⟨K', hrun, hK'⟩ := does_leaseAcquire micros httl hpos K hK
    rcases hscript : Script.leaseAcquire r.leases (mstime micros) name owner (milliseconds ttl) with
      ⟨_ | held, l⟩
    · rw [hscript] at hheld
      cases hheld
    · rw [hscript] at hheld hK'
      rw [← Option.some.inj hheld] at hrun
      refine ⟨K', (congrArg (Prod.map _ _) hrun).trans ?_, hK'⟩
      rcases held with _ | _
      · rfl
      · rfl

theorem yields_releaseLease (hK : Rep ns K₀ K r) (name owner : String) : ∃ K',
    Wire.releaseLease ns K name owner = ((releaseLease r.leases name owner).1, K') ∧
    Rep ns K₀ K' { r with leases := (releaseLease r.leases name owner).2 } := by
  rw [Wire.releaseLease, releaseLease]
  by_cases hnames : name = "" ∨ owner = ""
  · rw [if_pos hnames, if_pos hnames]
    exact ⟨K, rfl, hK⟩
  rw [if_neg hnames, if_neg hnames]
  obtain ⟨K', hrun, hK'⟩ := does_leaseRelease name owner K hK
  exact ⟨K', congrArg (Prod.map _ _) hrun, hK'⟩

/-! ### The cron store -/

theorem yields_scheduleCron (hK : Rep ns K₀ K r) (id : String) {fireAt : Time}
    (hexact : Exact (unixMilli fireAt)) :
    Yields ns K₀ (Wire.scheduleCronIfAbsent ns K id fireAt)
      (Reply.of .won (scheduleCronIfAbsent r.store id fireAt).1)
      { r with store := (scheduleCronIfAbsent r.store id fireAt).2 } := by
  rw [Wire.scheduleCronIfAbsent, scheduleCronIfAbsent]
  by_cases hid : id = ""
  · rw [if_pos hid, if_pos hid]
    exact yields_self hK _
  rw [if_neg hid, if_neg hid, luaArg_exact hexact]
  have hzset : K (key ns .cron) = zslot r.store.cron := (hK.holds .cron).1
  have hlook := Table.lookup_rename ofString_injective r.store.cron id
  rcases hold : r.store.cron.lookup id with _ | t
  · have hwrite := zaddNX_of_none hzset hexact (hlook.trans hold)
    rw [Table.insert_rename] at hwrite
    refine ⟨_, congrArg (Prod.map _ _) hwrite, ?_⟩
    exact hK.put (k := .cron)
      (cron_exact_insert (fun _ _ hn ↦ hK.cron_exact hn) hexact)
  · have hkeep := zaddNX_of_some (n := unixMilli fireAt) hzset (hlook.trans hold)
    exact ⟨K, congrArg (Prod.map _ _) hkeep, hK⟩

theorem yields_dueCron (hK : Rep ns K₀ K r) (hclock : Clock micros) {limit : ℤ}
    (hlimit : limit < 2 ^ 63) :
    Yields ns K₀ (Wire.dueCron ns micros K limit)
      (.due (dueCron r.store (mstime micros) limit)) r := by
  rw [Wire.dueCron, dueCron]
  by_cases hneg : limit ≤ 0
  · rw [if_pos hneg, if_pos hneg]
    exact yields_self hK _
  rw [if_neg hneg, if_neg hneg]
  have hzset : K (key ns .cron) = zslot r.store.cron := (hK.holds .cron).1
  have hread := zrangeWithScores_eq hzset hclock.exact (n := limit) (by omega) hlimit
  refine ⟨K, (congrArg (Prod.map _ _) hread).trans ?_, hK⟩
  rw [Table.due_rename ofString_strictMono, ← List.map_take, Prod.map_apply]
  simp [Wire.commandReply, List.map_map, Function.comp_def]

theorem yields_claimCron (hK : Rep ns K₀ K r) (id : String) {firedAt nextAt : Time}
    (hfired : Exact (unixMilli firedAt)) (hnext : Exact (unixMilli nextAt)) :
    Yields ns K₀ (Wire.claimCron ns K id firedAt nextAt)
      (Reply.of .won (claimCron r.store id firedAt nextAt).1)
      { r with store := (claimCron r.store id firedAt nextAt).2 } := by
  rw [Wire.claimCron, claimCron]
  by_cases hid : id = ""
  · rw [if_pos hid, if_pos hid]
    exact yields_self hK _
  rw [if_neg hid, if_neg hid]
  refine yields_map hK (does_cronClaim hfired hnext) ?_
  rcases Script.cronClaim r.store id (unixMilli firedAt) (unixMilli nextAt) with ⟨_ | _, s'⟩
  · rfl
  · rfl

theorem yields_removeCron (hK : Rep ns K₀ K r) (id : String) :
    Yields ns K₀ (Wire.removeCron ns K id) .done { r with store := removeCron r.store id } := by
  have hdoes : Does (Rep ns K₀) r (zrem (key ns .cron) (ofString id))
      (r.store.cron.lookup id).isSome (r.put .cron (r.store.cron.erase id)) := by
    refine Does.given fun K hK ↦ does_zrem (k := .cron) (fun _ ho ↦ ho.1) ⟨rfl, ?_⟩
    intro id' n hn
    rw [Table.lookup_erase_eq] at hn
    split_ifs at hn
    exact hK.cron_exact hn
  exact yields_map hK hdoes rfl

/-! ### All commands -/

/-- The numbers at hand when a command runs are in range. -/
structure InRange (completedTTL : Duration) (micros : ℤ) (r : Records) (c : Command) : Prop where
  clock : Clock micros
  retention : Int64 completedTTL
  sized : c.Sized
  counted : Counted r.store
  tallied : Tallied r.store

/-- **One command.** -/
theorem yields_exec (hK : Rep ns K₀ K r) {ttl : Duration} (listing : Listing) {c : Command}
    (hin : InRange ttl micros r c) :
    Yields ns K₀ (Wire.exec ns micros K ttl listing c) (r.exec (mstime micros) ttl c).1
      (r.exec (mstime micros) ttl c).2 := by
  obtain ⟨hclock, hkeep, hsized, hcount, htally⟩ := hin
  have hjob : ∀ {x : Except Wire.Fault Reply × Keyspace} {reply : Reply} {r' : Records},
      Yields ns K₀ x reply r' →
      Yields ns K₀ (x.map (Except.map Response.job) fun K ↦ K) (.job reply) r' := by
    rintro _ reply r' ⟨K', rfl, hK'⟩
    exact ⟨K', rfl, hK'⟩
  cases c with
  | job op =>
    refine hjob ?_
    cases op with
    | enqueue newID wall j => exact yields_enqueue hK hclock newID wall j hsized
    | dequeue o => exact yields_dequeue hK hclock hcount listing o hsized
    | ack w i => exact yields_ack hK htally hkeep w i
    | nack w i t reason => exact yields_nack hK hclock htally w i hsized reason
    | kill w i reason => exact yields_kill hK hclock htally w i reason
    | extend w ids vt => exact yields_extend hK hclock w ids hsized
    | reap q limit => exact yields_reap hK hclock hcount htally q hsized
    | promote limit => exact yields_promote hK hclock hsized
    | scheduleCronIfAbsent i t => exact yields_scheduleCron hK i hsized
    | dueCron limit => exact yields_dueCron hK hclock hsized
    | claimCron i t t' => exact yields_claimCron hK i hsized.1 hsized.2
    | removeCron i => exact yields_removeCron hK i
  | lease op =>
    cases op with
    | acquire name owner ttl =>
      obtain ⟨K', hrun, hK'⟩ := yields_acquireLease micros hK name owner hsized
      exact ⟨K', by rw [Wire.exec, hrun]; rfl, hK'⟩
    | release name owner =>
      obtain ⟨K', hrun, hK'⟩ := yields_releaseLease hK name owner
      exact ⟨K', by rw [Wire.exec, hrun]; rfl, hK'⟩
  | beat info ttl =>
    obtain ⟨K', hrun, hK'⟩ := yields_heartbeat hK hclock info hsized
    exact ⟨K', congrArg (Prod.map _ _) hrun, hK'⟩

end TaskQueue.Redis
