import TaskQueue.Redis.Representation

/-!
# Every script does what its record-level function says

For each script one theorem: on every keyspace that represents some records, the script as a
sequence of commands answers what the function of `TaskQueue.Redis.Scripts` returns, and leaves a
keyspace that represents the records this function leaves. The proofs follow the scripts line by
line, one rule of `TaskQueue.Redis.Representation` for each command.

This is where the numbers are settled. A script computes with doubles and writes what it computed in
decimal; a time is exact in both as long as it is at most `2 ^ 53` milliseconds, and a duration,
which is an `int64` of nanoseconds, always is.
-/

namespace TaskQueue.Redis

open Bulk Keyspace Lua
open Wire (Fits fields pairs luaArg)

/-- The server's clock counts from 1970 and has not run for `2 ^ 52` milliseconds. -/
structure Clock (micros : ℤ) : Prop where
  nonneg : 0 ≤ micros
  early : mstime micros < 2 ^ 52

/-- A number that fits in 64 bits. -/
def Int64 (n : ℤ) : Prop := -2 ^ 63 ≤ n ∧ n < 2 ^ 63

/-- A number that a double holds exactly, with its negative. -/
def Exact (n : ℤ) : Prop := |n| ≤ 2 ^ 53

variable {ns : String} {K₀ : Keyspace} {r : Records} {micros n : ℤ}

theorem Exact.int64 (hn : Exact n) : Int64 n := by
  have hrange := abs_le.1 hn
  constructor <;> omega

theorem exact_zero : Exact 0 := by rw [Exact, abs_zero]; decide

theorem exact_iff : Exact n ↔ -2 ^ 53 ≤ n ∧ n ≤ 2 ^ 53 := abs_le

theorem Clock.mstime_nonneg (hclock : Clock micros) : 0 ≤ mstime micros :=
  Int.ediv_nonneg hclock.nonneg (by decide)

theorem Clock.exact (hclock : Clock micros) : Exact (mstime micros) := by
  have hpos := hclock.mstime_nonneg
  have hlt := hclock.early
  exact exact_iff.2 ⟨by omega, by omega⟩

/-- A duration is an `int64` of nanoseconds, so it has few milliseconds. -/
theorem milliseconds_lt {d : Duration} (hd : Int64 d) :
    -2 ^ 44 < milliseconds d ∧ milliseconds d < 2 ^ 44 := by
  obtain ⟨hlow, hhigh⟩ := hd
  have htdiv : ∀ n : ℤ, -2 ^ 63 ≤ n → n < 2 ^ 63 →
      -2 ^ 44 < n.tdiv (10 ^ 6) ∧ n.tdiv (10 ^ 6) < 2 ^ 44 := by
    intro n hn hn'
    rcases le_total 0 n with h0 | h0
    · rw [Int.tdiv_eq_ediv_of_nonneg h0]
      omega
    · rw [← neg_neg n, Int.neg_tdiv, Int.tdiv_eq_ediv_of_nonneg (by omega)]
      omega
  exact htdiv d hlow hhigh

theorem exact_milliseconds {d : Duration} (hd : Int64 d) : Exact (milliseconds d) := by
  have hlt := milliseconds_lt hd
  exact exact_iff.2 ⟨by omega, by omega⟩

theorem Clock.exact_add {d : Duration} (hclock : Clock micros) (hd : Int64 d) :
    Exact (mstime micros + milliseconds d) := by
  have hpos := hclock.mstime_nonneg
  have hlt := hclock.early
  have hms := milliseconds_lt hd
  exact exact_iff.2 ⟨by omega, by omega⟩

theorem luaNumber_exact (hn : Exact n) : luaNumber n = n := Double.ofInt_of_abs_le hn

theorem luaArg_exact (hn : Exact n) : luaArg n = decimal n := by
  rw [luaArg, luaNumber_exact hn]

/-! ### Lua -/

theorem tonumber_eq {K : Keyspace} (hn : Int64 n) :
    (tonumber (decimal n)).run K = (.ok (luaNumber n), K) := by
  rw [tonumber, integer?, int64_decimal hn.1 hn.2, if_pos rfl]
  rfl

theorem does_tonumber (hn : Int64 n) :
    Does (Rep ns K₀) r (tonumber (decimal n)) (luaNumber n) r :=
  Does.reads fun _ _ ↦ tonumber_eq hn

theorem does_tonumber_exact (hn : Exact n) : Does (Rep ns K₀) r (tonumber (decimal n)) n r := by
  have hdoes : Does (Rep ns K₀) r (tonumber (decimal n)) (luaNumber n) r := does_tonumber hn.int64
  rwa [luaNumber_exact hn] at hdoes

theorem does_nowMs (hclock : Clock micros) :
    Does (Rep ns K₀) r (nowMs micros) (mstime micros) r := by
  have h0 := hclock.nonneg
  have hearly : micros / 1000 < 2 ^ 52 := hclock.early
  have hseconds : Exact (micros / 10 ^ 6) := exact_iff.2 ⟨by omega, by omega⟩
  have hrest : Exact (micros % 10 ^ 6) := exact_iff.2 ⟨by omega, by omega⟩
  have hproduct : Exact (micros / 10 ^ 6 * 1000) := exact_iff.2 ⟨by omega, by omega⟩
  have hsum : micros / 10 ^ 6 * 1000 + micros % 10 ^ 6 / 1000 = mstime micros := by
    rw [mstime]
    omega
  refine (does_tonumber_exact hseconds).bind ((does_tonumber_exact hrest).bind ?_)
  rw [luaNumber_exact hproduct, hsum, luaNumber_exact hclock.exact]
  exact Does.pure _

/-! ### enqueue.lua -/

/-- How `enqueue.lua` reports what it did. -/
def enqueueAnswer : Except String Unit → Answer
  | .ok _ => .array [.int 1]
  | .error existing => .array [.int 0, .bulk (ofString existing)]

section Enqueue

variable {j : Job}

theorem fits_jobHash (hclock : Clock micros) (hmax : Int64 j.maxAttempts)
    (hrun : Exact (msFromTime j.runAt)) : Fits (jobHash (mstime micros) j) where
  attempt := exact_zero.int64
  maxAttempts := hmax
  recoveries := exact_zero.int64
  enqueuedAt := hclock.exact.int64
  runAt := hrun.int64
  startedAt := exact_zero.int64
  deadline := exact_zero.int64

theorem does_enqueuePlace {now : ℤ} (hrun : Exact (msFromTime j.runAt)) :
    Does (Rep ns K₀) r
      (enqueuePlace (Wire.enqueueKeys ns j) (Wire.enqueueArgs j)
        (Wire.stateText (jobHash now j).state) (msFromTime j.runAt)) ()
      { r with store :=
        if (jobHash now j).state = .scheduled then
          { r.store with delayed := r.store.delayed.insert j.id (msFromTime j.runAt) }
        else r.store.rpush j.queue j.id } := by
  rw [enqueuePlace, luaArg_exact hrun]
  by_cases hlate : now < msFromTime j.runAt
  · have hstate : (jobHash now j).state = .scheduled := if_pos hlate
    rw [hstate]
    exact Does.ofPos rfl (does_zaddDelayed hrun)
  · have hstate : (jobHash now j).state = .pending := if_neg hlate
    rw [hstate]
    exact Does.ofNeg (show Wire.stateText .pending ≠ "scheduled" by decide) does_rpush

theorem does_enqueueStore (hclock : Clock micros) (hmax : Int64 j.maxAttempts)
    (hrun : Exact (msFromTime j.runAt)) :
    Does (Rep ns K₀) r
      (enqueueStore (Wire.enqueueKeys ns j) (Wire.enqueueArgs j) (mstime micros))
      (.array [.int 1])
      { r with store := Script.place r.store (jobHash (mstime micros) j) } := by
  have hzero : luaArg 0 = decimal 0 := luaArg_exact exact_zero
  have hfits := fits_jobHash hclock hmax hrun
  refine Does.bind (does_tonumber_exact hrun) ?_
  have hstate : (if mstime micros < msFromTime j.runAt then "scheduled" else "pending") =
      Wire.stateText (jobHash (mstime micros) j).state := by
    rw [jobHash, Script.newHash]
    split_ifs <;> rfl
  dsimp only
  rw [hstate, hzero, luaArg_exact hclock.exact]
  refine Does.bind (does_hset_all j.id hfits) ?_
  refine Does.bind (does_enqueuePlace hrun) ?_
  exact Does.bind does_sadd (Does.pure _)

/-- **enqueue.lua.** -/
theorem does_enqueue (hclock : Clock micros) (hmax : Int64 j.maxAttempts)
    (hrun : Exact (msFromTime j.runAt)) (httl : Exact (uniqueTTL j)) :
    Does (Rep ns K₀) r (Lua.enqueue micros (Wire.enqueueKeys ns j) (Wire.enqueueArgs j))
      (enqueueAnswer
        (Script.enqueue r.store (mstime micros) (jobHash (mstime micros) j) (uniqueTTL j)).1)
      { r with store :=
        (Script.enqueue r.store (mstime micros) (jobHash (mstime micros) j) (uniqueTTL j)).2 } := by
  refine Does.bind (does_nowMs hclock) (Does.bind (does_tonumber_exact httl) ?_)
  by_cases hwindow : 0 < uniqueTTL j
  · have hkey : j.uniqueKey ≠ "" := fun h ↦ by simp [uniqueTTL, h] at hwindow
    have harg : arg (Wire.enqueueKeys ns j) 5 = key ns (.unique j.uniqueKey) := by
      show ofString (kUnique ns (if j.uniqueKey = "" then "__none__" else j.uniqueKey)) = _
      rw [if_neg hkey]
      rfl
    have hlt := httl.int64.2
    rw [luaArg_exact httl, harg]
    refine Does.ofPos hwindow ?_
    rcases hu : r.store.unique j.uniqueKey with _ | u
    · have hscript : Script.enqueue r.store (mstime micros) (jobHash (mstime micros) j)
          (uniqueTTL j) = (.ok (), Script.place { r.store with
            unique := Function.update r.store.unique j.uniqueKey
              (some ⟨j.id, mstime micros + uniqueTTL j⟩) } (jobHash (mstime micros) j)) := by
        rw [Script.enqueue, if_pos hwindow, show r.store.unique
          (jobHash (mstime micros) j).uniqueKey = none from hu]
        rfl
      rw [hscript]
      exact Does.bind (does_setNXPX_free hwindow hlt hu)
        (Does.ofTrue (does_enqueueStore hclock hmax hrun))
    · have hscript : Script.enqueue r.store (mstime micros) (jobHash (mstime micros) j)
          (uniqueTTL j) = (.error u.value, r.store) := by
        rw [Script.enqueue, if_pos hwindow, show r.store.unique
          (jobHash (mstime micros) j).uniqueKey = some u from hu]
      rw [hscript]
      exact Does.bind (does_setNXPX_held hwindow hlt hu)
        (Does.ofFalse (Does.bind (does_getUnique hu) (Does.pure _)))
  · have hscript : Script.enqueue r.store (mstime micros) (jobHash (mstime micros) j)
        (uniqueTTL j) = (.ok (), Script.place r.store (jobHash (mstime micros) j)) := by
      rw [Script.enqueue, if_neg hwindow]
    rw [hscript]
    exact Does.ofNeg hwindow (does_enqueueStore hclock hmax hrun)

end Enqueue

/-! ### dequeue.lua -/

section Dequeue

variable {id q worker : String} {e : Entry} {h : Hash} {vt : ℤ}

theorem jobPrefix_append (id : String) :
    ofString (pJob ns) ++ ofString id = key ns (.job id) := (ofString_append _ _).symm

theorem activePrefix_append (q : String) :
    ofString (pActive ns) ++ ofString q = key ns (.active q) := (ofString_append _ _).symm

theorem queuePrefix_append (q : String) :
    ofString (pQueue ns) ++ ofString q = key ns (.queue q) := (ofString_append _ _).symm

theorem Store.job_hset (s : Store) (id : String) (h : Hash) :
    (s.hset id h).job id = some ⟨h, (s.job id).bind Entry.expireAt⟩ := Function.update_self _ _ _

/-- Of two writes to a job the last one counts. -/
theorem Store.hset_hset (s : Store) (id : String) (h h' : Hash) :
    (s.hset id h).hset id h' = s.hset id h' := by
  simp only [Store.hset, Function.update_self, Function.update_idem, Option.bind_some]

/-- The two writes to the hash, the active set and the reply. -/
theorem does_claim (hclock : Clock micros) (hvt : Exact (mstime micros + vt)) (listing : Listing)
    (he : r.store.job id = some e) (hfits : Fits e.hash) (hcount : e.hash.attempt + 1 < 2 ^ 63) :
    Does (Rep ns K₀) r
      (claim listing (mstime micros) vt (ofString worker) (ofString (pJob ns)) (key ns (.active q))
        (ofString id))
      (listing.list (fields (Script.claimed (mstime micros) worker vt e.hash)))
      { r with store := Script.claim r.store (mstime micros) worker vt q id e.hash } := by
  have hnext : -2 ^ 63 ≤ e.hash.attempt + 1 ∧ e.hash.attempt + 1 < 2 ^ 63 := by
    have hlow := hfits.attempt.1
    omega
  have hfits' : Fits { e.hash with attempt := e.hash.attempt + 1 } :=
    { hfits with attempt := hnext }
  have hclaimed : Fits (Script.claimed (mstime micros) worker vt e.hash) :=
    { hfits' with startedAt := hclock.exact.int64, deadline := hvt.int64 }
  have hincr : (fields e.hash).set [("attempt", decimal (e.hash.attempt + 1))] =
      fields { e.hash with attempt := e.hash.attempt + 1 } :=
    Wire.set_fields (by simp) (by simp [pairs])
  have hset : (fields { e.hash with attempt := e.hash.attempt + 1 }).set
      [("state", ofString "active"), ("owner", ofString worker),
        ("started_at", decimal (mstime micros)), ("deadline", decimal (mstime micros + vt))] =
      fields (Script.claimed (mstime micros) worker vt e.hash) :=
    Wire.set_fields (by simp) (by simp [pairs])
  rw [claim, jobPrefix_append, luaNumber_exact hvt, luaArg_exact hvt, luaArg_exact hclock.exact]
  refine Does.bind (does_hincrby he (by simp [pairs]) hincr hfits' hfits.attempt hnext) ?_
  refine Does.bind (does_hset (Store.job_hset _ _ _) hset hclaimed) ?_
  rw [Store.hset_hset]
  exact Does.bind (does_zaddActive hvt) (does_hgetall listing (Store.job_hset r.store id _))

/-- No job has been claimed or recovered nearly as often as a counter can hold. -/
def Counted (s : Store) : Prop :=
  ∀ id e, s.job id = some e → e.hash.attempt < 2 ^ 62 ∧ e.hash.recoveries < 2 ^ 62

/-- **The inner loop.** By induction on its bound; what it drops on the way has no hash. -/
theorem does_popJob (hclock : Clock micros) (hvt : Exact (mstime micros + vt)) (listing : Listing)
    (bound : ℕ) (hcount : Counted r.store) :
    Does (Rep ns K₀) r
      (popJob listing (mstime micros) vt (ofString worker) (ofString (pJob ns)) (key ns (.queue q))
        (key ns (.active q)) bound)
      ((Script.popJob (mstime micros) worker vt q bound r.store).1.map
        fun h ↦ listing.list (fields h))
      { r with store := (Script.popJob (mstime micros) worker vt q bound r.store).2 } := by
  induction bound generalizing r with
  | zero => exact Does.pure _
  | succ bound ih =>
    rw [popJob, Script.popJob]
    rcases hready : r.store.ready q with - | ⟨id, ids⟩
    · exact Does.bind (does_lpop_nil hready) (Does.pure _)
    · refine Does.bind (does_lpop_cons hready) ?_
      dsimp only
      rw [jobPrefix_append]
      rcases he : r.store.job id with _ | e
      · exact Does.bind (does_not_exists he) (Does.ofFalse (ih hcount))
      · refine Does.bind (does_exists he) (Does.ofTrue (Does.given fun K hK ↦ ?_))
        refine Does.bind (does_claim hclock hvt listing he (hK.fits he) ?_) (Does.pure _)
        have hlt := (hcount id e he).1
        omega

/-- What `dequeue.lua` returns. -/
def dequeueAnswer (listing : Listing) : Option Hash → Answer
  | none => .nil
  | some h => .array ((listing.list (fields h)).map .bulk)

/-- The store keeps its counts while nothing is claimed. -/
theorem job_of_popJob_none {now : ℤ} {bound : ℕ} {s s' : Store}
    (hpop : Script.popJob now worker vt q bound s = (none, s')) : s'.job = s.job := by
  induction bound generalizing s with
  | zero =>
    obtain ⟨-, rfl⟩ := Prod.mk.inj hpop
    rfl
  | succ bound ih =>
    rw [Script.popJob] at hpop
    rcases hready : s.ready q with - | ⟨id, ids⟩
    · rw [hready] at hpop
      obtain ⟨-, rfl⟩ := Prod.mk.inj hpop
      rfl
    · rw [hready] at hpop
      dsimp only at hpop
      rcases he : s.job id with _ | e
      · rw [he] at hpop
        exact ih (s := s.lpop q) hpop
      · rw [he] at hpop
        cases (Prod.mk.inj hpop).1

theorem does_dequeueLoop (hclock : Clock micros) (hvt : Exact (mstime micros + vt))
    (listing : Listing) (queues : List String) (hcount : Counted r.store) :
    Does (Rep ns K₀) r
      (dequeueLoop listing (mstime micros) vt (ofString worker) (ofString (pJob ns))
        (Wire.dequeueKeys ns queues))
      (dequeueAnswer listing (Script.dequeue (mstime micros) worker vt queues r.store).1)
      { r with store := (Script.dequeue (mstime micros) worker vt queues r.store).2 } := by
  induction queues generalizing r with
  | nil => exact Does.pure _
  | cons q queues ih =>
    have hkeys : Wire.dequeueKeys ns (q :: queues) =
        key ns (.queue q) :: key ns (.active q) :: Wire.dequeueKeys ns queues := rfl
    rw [hkeys, dequeueLoop, Script.dequeue]
    refine Does.bind (does_popJob hclock hvt listing 20 hcount) ?_
    rcases hpop : Script.popJob (mstime micros) worker vt q 20 r.store with ⟨_ | h, s'⟩
    · refine ih ?_
      rw [Counted, job_of_popJob_none hpop]
      exact hcount
    · exact Does.pure _

/-- **dequeue.lua.** -/
theorem does_dequeue (hclock : Clock micros) {d : Duration} (hd : Int64 d) (listing : Listing)
    (worker : String) (queues : List String) (hcount : Counted r.store) :
    Does (Rep ns K₀) r
      (Lua.dequeue micros (Wire.dequeueKeys ns queues)
        [ofString worker, decimal (milliseconds d), ofString (pJob ns)] listing)
      (dequeueAnswer listing
        (Script.dequeue (mstime micros) worker (milliseconds d) queues r.store).1)
      { r with store :=
        (Script.dequeue (mstime micros) worker (milliseconds d) queues r.store).2 } :=
  Does.bind (does_nowMs hclock) (Does.bind (does_tonumber_exact (exact_milliseconds hd))
    (does_dequeueLoop hclock (hclock.exact_add hd) listing queues hcount))

end Dequeue

/-! ### ack.lua, nack.lua, kill.lua -/

/-- How the fence reports a refusal. -/
def refusalItems : Script.Refusal → List Item
  | .notfound => [.int 0, .bulk (ofString "notfound")]
  | .lease state owner =>
    [.int 0, .bulk (ofString "lease"), .bulk (ofString (Wire.stateText state)),
      .bulk (ofString owner)]

section Fence

variable {id worker : String} {e : Entry} {h : Hash} {body : Prog Answer}

theorem stateText_inj {state state' : State} :
    Wire.stateText state = Wire.stateText state' ↔ state = state' :=
  ⟨fun heq ↦ by simpa using congrArg Wire.stateOf heq, congrArg _⟩

theorem state_eq_iff {state : State} :
    some (ofString (Wire.stateText state)) = some (ofString "active") ↔ state = .active := by
  rw [Option.some_inj, ofString_inj, show "active" = Wire.stateText .active from rfl, stateText_inj]

theorem owner_eq_iff {owner : String} :
    some (ofString owner) = some (ofString worker) ↔ owner = worker := by
  rw [Option.some_inj, ofString_inj]

/-- A report that is refused changes nothing. -/
theorem does_fenced_error {refusal : Script.Refusal}
    (hfence : Script.fence r.store worker id = .error refusal) :
    Does (Rep ns K₀) r (fenced (key ns (.job id)) (ofString worker) body)
      (.array (refusalItems refusal)) r := by
  rw [Script.fence] at hfence
  rcases he : r.store.job id with _ | e
  · rw [he] at hfence
    obtain rfl := Except.error.inj hfence
    exact Does.bind (does_not_exists he) (Does.ofFalse (Does.pure _))
  · rw [he] at hfence
    dsimp only at hfence
    split_ifs at hfence with hrefuse
    obtain rfl := Except.error.inj hfence
    refine Does.bind (does_exists he) (Does.ofTrue ?_)
    refine Does.bind (does_hget_state he) (Does.bind (does_hget_owner he) ?_)
    refine Does.ofPos ?_ (Does.pure _)
    rw [ne_eq, ne_eq, state_eq_iff, owner_eq_iff]
    exact hrefuse

/-- The body of a script runs for the holder of the lease. -/
theorem does_fenced_ok (he : r.store.job id = some e) (hstate : e.hash.state = .active)
    (howner : e.hash.owner = worker) {a : Answer} {r' : Records}
    (hbody : Does (Rep ns K₀) r body a r') :
    Does (Rep ns K₀) r (fenced (key ns (.job id)) (ofString worker) body) a r' := by
  refine Does.bind (does_exists he) (Does.ofTrue ?_)
  refine Does.bind (does_hget_state he) (Does.bind (does_hget_owner he) ?_)
  refine Does.ofNeg ?_ hbody
  rw [ne_eq, ne_eq, state_eq_iff, owner_eq_iff, not_or, not_not, not_not]
  exact ⟨hstate, howner⟩

/-- The first commands behind the fence: the fields that say where the lease is, and its removal. -/
theorem does_release {α : Type} {f : Bulk → Prog α} {a : α} {r' : Records}
    (he : r.store.job id = some e)
    (hf : Does (Rep ns K₀) { r with store := r.store.zremActive e.hash.queue e.hash.id }
      (f (ofString e.hash.id)) a r') :
    Does (Rep ns K₀) r
      (do
        let member ← need (← hget (key ns (.job id)) "id")
        let queue ← need (← hget (key ns (.job id)) "queue")
        let _ ← zrem (ofString (pActive ns) ++ queue) member
        f member) a r' := by
  refine Does.bind (does_hget_id he) (Does.bind (Does.need _) ?_)
  refine Does.bind (does_hget_queue he) (Does.bind (Does.need _) ?_)
  rw [activePrefix_append]
  exact Does.bind does_zremActive hf

end Fence

/-- How `ack.lua` and `kill.lua` report. -/
def reportAnswer (items : List Item) : Except Script.Refusal Unit → Answer
  | .ok _ => .array items
  | .error refusal => .array (refusalItems refusal)

section Reports

variable {id worker reason : String} {e : Entry}

/-- The counters of the store are not nearly as large as they can be. -/
structure Tallied (s : Store) : Prop where
  processed : 0 ≤ s.processed ∧ s.processed < 2 ^ 62
  failed : 0 ≤ s.failed ∧ s.failed < 2 ^ 62

/-- **ack.lua.** -/
theorem does_ack {ttl : Duration} (httl : Int64 ttl) (htally : Tallied r.store) :
    Does (Rep ns K₀) r
      (Lua.ack micros [ofString (kJob ns id), ofString (kProcessed ns)]
        [ofString worker, decimal (milliseconds ttl), ofString (pActive ns)])
      (reportAnswer [.int 1]
        (Script.ack r.store (mstime micros) worker id (milliseconds ttl)).1)
      { r with store := (Script.ack r.store (mstime micros) worker id (milliseconds ttl)).2 } := by
  rw [Script.ack]
  rcases hfence : Script.fence r.store worker id with refusal | h
  · exact does_fenced_error hfence
  obtain ⟨e, he, rfl, hstate, howner⟩ := Store.fence_eq_ok.1 hfence
  refine does_fenced_ok he hstate howner (Does.given fun K hK ↦ does_release he ?_)
  refine Does.bind (does_incr_processed htally.processed.1 htally.processed.2) ?_
  refine Does.bind (does_tonumber_exact (exact_milliseconds httl)) ?_
  rw [luaArg_exact (exact_milliseconds httl)]
  have hfits := hK.fits he
  have hfits' : Fits { e.hash with state := .completed, owner := "" } := { hfits with }
  have hset : (fields e.hash).set [("state", ofString "completed"), ("owner", ofString "")] =
      fields { e.hash with state := .completed, owner := "" } :=
    Wire.set_fields (by simp) (by simp [pairs])
  by_cases hpos : 0 < milliseconds ttl
  · simp only [if_pos hpos]
    refine Does.bind (does_hset he hset hfits') ?_
    refine Does.bind (does_pexpire (Store.job_hset _ _ _) hfits' hpos ?_) (Does.pure _)
    exact (exact_milliseconds httl).int64.2
  · simp only [if_neg hpos]
    exact Does.bind does_del (Does.pure _)

/-- Dead-lettering in the sets and the counter, behind the write to the hash. -/
theorem does_deadLetter {h : Hash} {α : Type} {x : Prog α} {a : α} {r' : Records}
    (hclock : Clock micros) (htally : Tallied r.store)
    (hx : Does (Rep ns K₀) { r with store := { r.store with
      dead := r.store.dead.insert h.id (mstime micros), failed := r.store.failed + 1 } } x a r') :
    Does (Rep ns K₀) r
      (do
        zadd (key ns .dead) (luaArg (← nowMs micros)) (ofString h.id)
        let _ ← incr (key ns .failed)
        x) a r' := by
  refine Does.bind (does_nowMs hclock) ?_
  rw [luaArg_exact hclock.exact]
  refine Does.bind (does_zaddDead hclock.exact) ?_
  have hfailed := htally.failed
  exact Does.bind (does_incr_failed hfailed.1 (by show r.store.failed + 1 < 2 ^ 63; omega)) hx

/-- **kill.lua.** -/
theorem does_kill (hclock : Clock micros) (htally : Tallied r.store) :
    Does (Rep ns K₀) r
      (Lua.kill micros [ofString (kJob ns id), ofString (kDead ns), ofString (kFailed ns)]
        [ofString worker, ofString reason, ofString (pActive ns)])
      (reportAnswer [.int 1] (Script.kill r.store (mstime micros) worker id reason).1)
      { r with store := (Script.kill r.store (mstime micros) worker id reason).2 } := by
  rw [Script.kill]
  rcases hfence : Script.fence r.store worker id with refusal | h
  · exact does_fenced_error hfence
  obtain ⟨e, he, rfl, hstate, howner⟩ := Store.fence_eq_ok.1 hfence
  refine does_fenced_ok he hstate howner (Does.given fun K hK ↦ does_release he ?_)
  have hfits : Fits { e.hash with lastErr := reason, state := .dead, owner := "" } :=
    { hK.fits he with }
  have hset : (fields e.hash).set [("state", ofString "dead"), ("owner", ofString ""),
      ("last_err", ofString reason)] =
      fields { e.hash with lastErr := reason, state := .dead, owner := "" } :=
    Wire.set_fields (by simp) (by simp [pairs])
  refine Does.bind (does_hset he hset hfits) ?_
  exact does_deadLetter (h := e.hash) hclock ⟨htally.processed, htally.failed⟩ (Does.pure _)

/-- The attempts and the budget of a job, as Lua numbers. -/
theorem does_budget {α : Type} {f : ℤ → ℤ → Prog α} {a : α} {r' : Records}
    (he : r.store.job id = some e) (hfits : Fits e.hash)
    (hf : Does (Rep ns K₀) r (f (luaNumber e.hash.attempt) (luaNumber e.hash.maxAttempts)) a r') :
    Does (Rep ns K₀) r
      (do
        let attempt ← tonumber (← need (← hget (key ns (.job id)) "attempt"))
        let maxAttempts ← tonumber (← need (← hget (key ns (.job id)) "max_attempts"))
        f attempt maxAttempts) a r' := by
  refine Does.bind (does_hget_attempt he) (Does.bind (Does.need _) ?_)
  refine Does.bind (does_tonumber hfits.attempt) ?_
  refine Does.bind (does_hget_maxAttempts he) (Does.bind (Does.need _) ?_)
  exact Does.bind (does_tonumber hfits.maxAttempts) hf

/-- **nack.lua**, which says what became of the job. -/
theorem does_nack (worker id reason : String) {retryAt : Time} (hclock : Clock micros)
    (hretry : Exact (msFromTime retryAt)) (htally : Tallied r.store) : ∃ how,
    Does (Rep ns K₀) r
      (Lua.nack micros
        [ofString (kJob ns id), ofString (kRetry ns), ofString (kDead ns), ofString (kFailed ns)]
        [ofString worker, decimal (msFromTime retryAt), ofString reason, ofString (pActive ns)])
      (reportAnswer [.int 1, .bulk how]
        (Script.nack r.store (mstime micros) worker id (msFromTime retryAt) reason).1)
      { r with store :=
        (Script.nack r.store (mstime micros) worker id (msFromTime retryAt) reason).2 } := by
  rw [Script.nack]
  rcases hfence : Script.fence r.store worker id with refusal | h
  · exact ⟨[], does_fenced_error hfence⟩
  obtain ⟨e, he, rfl, hstate, howner⟩ := Store.fence_eq_ok.1 hfence
  have hset : (fields e.hash).set [("last_err", ofString reason), ("owner", ofString "")] =
      fields { e.hash with lastErr := reason, owner := "" } :=
    Wire.set_fields (by simp) (by simp [pairs])
  have hdead : (fields { e.hash with lastErr := reason, owner := "" }).set
      [("state", ofString "dead")] =
      fields { e.hash with lastErr := reason, owner := "", state := .dead } :=
    Wire.set_fields (by simp) (by simp [pairs])
  have hagain : (fields { e.hash with lastErr := reason, owner := "" }).set
      [("state", ofString "retry")] =
      fields { e.hash with lastErr := reason, owner := "", state := .retry } :=
    Wire.set_fields (by simp) (by simp [pairs])
  dsimp only
  by_cases hspent : spent e.hash.attempt e.hash.maxAttempts
  · refine ⟨ofString "dead", does_fenced_ok he hstate howner
      (Does.given fun K hK ↦ does_release he ?_)⟩
    have hfits := hK.fits he
    refine Does.bind (does_hset he hset { hfits with }) ?_
    refine does_budget (Store.job_hset _ _ _) { hfits with } ?_
    simp only [if_pos hspent]
    refine Does.ofPos (of_decide_eq_true hspent) ?_
    refine Does.bind (does_hset (Store.job_hset _ _ _) hdead { hfits with }) ?_
    rw [Store.hset_hset]
    exact does_deadLetter (h := e.hash) hclock ⟨htally.processed, htally.failed⟩ (Does.pure _)
  · refine ⟨ofString "retry", does_fenced_ok he hstate howner
      (Does.given fun K hK ↦ does_release he ?_)⟩
    have hfits := hK.fits he
    refine Does.bind (does_hset he hset { hfits with }) ?_
    refine does_budget (Store.job_hset _ _ _) { hfits with } ?_
    simp only [if_neg hspent]
    refine Does.ofNeg (fun h ↦ hspent (decide_eq_true h)) ?_
    refine Does.bind (does_hset (Store.job_hset _ _ _) hagain { hfits with }) ?_
    rw [Store.hset_hset]
    refine Does.bind (does_tonumber_exact hretry) ?_
    rw [luaArg_exact hretry]
    exact Does.bind (does_zaddRetry hretry) (Does.pure _)

end Reports

/-! ### extend.lua -/

section Extend

variable {id worker : String} {vt : ℤ}

theorem does_renew_error (hfence : ∀ h, Script.fence r.store worker id ≠ .ok h) :
    Does (Rep ns K₀) r
      (renew (mstime micros) vt (ofString worker) (ofString (pJob ns)) (ofString (pActive ns))
        (ofString id)) false r := by
  rw [renew, jobPrefix_append]
  rcases he : r.store.job id with _ | e
  · exact Does.bind (does_not_exists he) (Does.ofFalse (Does.pure _))
  · refine Does.bind (does_exists he) (Does.ofTrue ?_)
    refine Does.bind (does_hget_state he) (Does.bind (does_hget_owner he) ?_)
    refine Does.ofNeg ?_ (Does.pure _)
    rw [state_eq_iff, owner_eq_iff]
    exact fun hheld ↦ hfence e.hash (Store.fence_eq_ok.2 ⟨e, he, rfl, hheld.1, hheld.2⟩)

theorem does_renew_ok {h : Hash} (hvt : Exact (mstime micros + vt))
    (hfence : Script.fence r.store worker id = .ok h) :
    Does (Rep ns K₀) r
      (renew (mstime micros) vt (ofString worker) (ofString (pJob ns)) (ofString (pActive ns))
        (ofString id)) true
      { r with store := Script.renew r.store id h (mstime micros + vt) } := by
  obtain ⟨e, he, rfl, hstate, howner⟩ := Store.fence_eq_ok.1 hfence
  have hset : (fields e.hash).set [("deadline", decimal (mstime micros + vt))] =
      fields { e.hash with deadline := mstime micros + vt } :=
    Wire.set_fields (by simp) (by simp [pairs])
  rw [renew, jobPrefix_append, luaNumber_exact hvt]
  dsimp only
  rw [luaArg_exact hvt]
  refine Does.bind (does_exists he) (Does.ofTrue (Does.given fun K hK ↦ ?_))
  refine Does.bind (does_hget_state he) (Does.bind (does_hget_owner he) ?_)
  refine Does.ofPos ⟨state_eq_iff.2 hstate, owner_eq_iff.2 howner⟩ ?_
  refine Does.bind (does_hget_queue he) (Does.bind (Does.need _) ?_)
  refine Does.bind (does_hset he hset { hK.fits he with deadline := hvt.int64 }) ?_
  rw [activePrefix_append]
  exact Does.bind (does_zaddActive hvt) (Does.pure _)

/-- **The loop**, by recursion on the list of IDs. -/
theorem does_extendLoop (hvt : Exact (mstime micros + vt)) (ids : List String) :
    Does (Rep ns K₀) r
      (extendLoop (mstime micros) vt (ofString worker) (ofString (pJob ns)) (ofString (pActive ns))
        (ids.map ofString))
      ((Script.extend worker (mstime micros + vt) ids r.store).1.map ofString)
      { r with store := (Script.extend worker (mstime micros + vt) ids r.store).2 } := by
  induction ids generalizing r with
  | nil => exact Does.pure _
  | cons id ids ih =>
    rw [List.map_cons, extendLoop, Script.extend]
    rcases hfence : Script.fence r.store worker id with refusal | h
    · have hrefused (h : Hash) : Script.fence r.store worker id ≠ .ok h := by
        rw [hfence]
        intro heq
        cases heq
      refine Does.bind (does_renew_error hrefused) ?_
      exact Does.bind ih (Does.pure _)
    · exact Does.bind (does_renew_ok hvt hfence) (Does.bind ih (Does.pure _))

/-- **extend.lua.** -/
theorem does_extend (hclock : Clock micros) {d : Duration} (hd : Int64 d) (ids : List String) :
    Does (Rep ns K₀) r
      (Lua.extend micros
        ([ofString worker, decimal (milliseconds d), ofString (pJob ns), ofString (pActive ns)] ++
          ids.map ofString))
      (.array (((Script.extend worker (mstime micros + milliseconds d) ids r.store).1.map
        ofString).map .bulk))
      { r with store :=
        (Script.extend worker (mstime micros + milliseconds d) ids r.store).2 } :=
  Does.bind (does_nowMs hclock) (Does.bind (does_tonumber_exact (exact_milliseconds hd))
    (Does.bind (does_extendLoop (hclock.exact_add hd) ids) (Does.pure _)))

end Extend

/-! ### reap.lua -/

section Reap

variable {id q : String} {e : Entry}

/-- Every job of the store could be recovered `n` times more, and `n` jobs more could fail. -/
structure Room (s : Store) (n : ℕ) : Prop where
  recoveries : ∀ id e, s.job id = some e → e.hash.recoveries + n < 2 ^ 63
  failed : 0 ≤ s.failed ∧ s.failed + n < 2 ^ 63

theorem Room.recover {s : Store} {now : ℤ} {n : ℕ} (hroom : Room s (n + 1))
    (he : s.job id = some e) : Room (Script.recover s now q id e.hash) n := by
  have hrec := hroom.recoveries id e he
  have hfailed := hroom.failed
  constructor
  · intro id' e' he'
    by_cases hid : id' = id
    · subst hid
      have hcount : e'.hash.recoveries = e.hash.recoveries + 1 := by
        rw [Script.recover] at he'
        dsimp only at he'
        split_ifs at he'
        all_goals
          simp only [Store.hset, Store.lpush, Function.update_self, Option.some.injEq] at he'
          rw [← he']
      rw [hcount]
      push_cast at hrec
      omega
    · have hsame : s.job id' = some e' := by
        rw [Script.recover] at he'
        dsimp only at he'
        split_ifs at he'
        all_goals
          simpa only [Store.hset, Store.lpush, Function.update_of_ne hid] using he'
      have hlt := hroom.recoveries id' e' hsame
      push_cast at hlt
      omega
  · rw [Script.recover]
    dsimp only
    push_cast at hfailed
    split_ifs
    · exact ⟨by show 0 ≤ s.failed + 1; omega, by show s.failed + 1 + n < 2 ^ 63; omega⟩
    · exact ⟨hfailed.1, by show s.failed + n < 2 ^ 63; omega⟩

/-- One expired lease of queue `q`. -/
theorem does_recover {n : ℕ} (hclock : Clock micros) (he : r.store.job id = some e)
    (hfits : Fits e.hash) (hroom : Room r.store (n + 1)) :
    Does (Rep ns K₀) r
      (recover
        [ofString (kActive ns q), ofString (kDead ns), ofString (kQueue ns q),
          ofString (kFailed ns)]
        (mstime micros) (key ns (.job id)) (ofString id))
      (spent e.hash.attempt e.hash.maxAttempts)
      { r with store := Script.recover r.store (mstime micros) q id e.hash } := by
  have hrec := hroom.recoveries id e he
  have hnext : -2 ^ 63 ≤ e.hash.recoveries + 1 ∧ e.hash.recoveries + 1 < 2 ^ 63 := by
    have hlow := hfits.recoveries.1
    push_cast at hrec
    omega
  have hincr : (fields e.hash).set [("recoveries", decimal (e.hash.recoveries + 1))] =
      fields { e.hash with recoveries := e.hash.recoveries + 1 } :=
    Wire.set_fields (by simp) (by simp [pairs])
  have hfree : (fields { e.hash with recoveries := e.hash.recoveries + 1 }).set
      [("owner", ofString "")] =
      fields { e.hash with recoveries := e.hash.recoveries + 1, owner := "" } :=
    Wire.set_fields (by simp) (by simp [pairs])
  have hfits' : Fits { e.hash with recoveries := e.hash.recoveries + 1, owner := "" } :=
    { hfits with recoveries := hnext }
  rw [recover, Script.recover]
  refine Does.bind (does_hincrby he (by simp [pairs]) hincr { hfits with recoveries := hnext }
    hfits.recoveries hnext) ?_
  refine Does.bind (does_hset (Store.job_hset _ _ _) hfree hfits') ?_
  rw [Store.hset_hset]
  refine does_budget (Store.job_hset _ _ _) hfits' ?_
  dsimp only
  by_cases hspent : spent e.hash.attempt e.hash.maxAttempts
  · have hdead : (fields { e.hash with recoveries := e.hash.recoveries + 1, owner := "" }).set
        [("state", ofString "dead"),
          ("last_err", ofString "orphaned: lease expired after " ++
            ofString (Script.luaText (luaNumber e.hash.attempt)) ++ ofString " attempts")] =
        fields { e.hash with
          recoveries := e.hash.recoveries + 1
          owner := ""
          state := .dead
          lastErr := Script.orphaned e.hash.attempt } := by
      rw [← ofString_append, ← ofString_append]
      exact Wire.set_fields (by simp) (by simp [pairs])
    have hfailed := hroom.failed
    push_cast at hfailed
    simp only [if_pos hspent]
    refine Does.ofPos (of_decide_eq_true hspent) ?_
    refine Does.bind (does_hset (Store.job_hset _ _ _) hdead { hfits' with }) ?_
    rw [Store.hset_hset, luaArg_exact hclock.exact, hspent]
    refine Does.bind (does_zaddDead hclock.exact) ?_
    exact Does.bind (does_incr_failed hfailed.1 (by show r.store.failed + 1 < 2 ^ 63; omega))
      (Does.pure _)
  · have hpending : (fields { e.hash with recoveries := e.hash.recoveries + 1, owner := "" }).set
        [("state", ofString "pending")] =
        fields { e.hash with
          recoveries := e.hash.recoveries + 1
          owner := ""
          state := .pending } :=
      Wire.set_fields (by simp) (by simp [pairs])
    simp only [if_neg hspent]
    refine Does.ofNeg (fun h ↦ hspent (decide_eq_true h)) ?_
    refine Does.bind (does_hset (Store.job_hset _ _ _) hpending { hfits' with }) ?_
    rw [Store.hset_hset, Bool.eq_false_iff.2 hspent]
    exact Does.bind does_lpush (Does.pure _)

/-- **The loop**, by recursion on the members that were fetched: each of them takes one count. -/
theorem does_reapLoop (hclock : Clock micros) (ids : List String) (n : ℕ × ℕ)
    (hroom : Room r.store ids.length) :
    Does (Rep ns K₀) r
      (reapLoop
        [ofString (kActive ns q), ofString (kDead ns), ofString (kQueue ns q),
          ofString (kFailed ns)]
        (mstime micros) (ofString (pJob ns)) (ids.map ofString) n)
      (Script.reapLoop (mstime micros) q ids n r.store).1
      { r with store := (Script.reapLoop (mstime micros) q ids n r.store).2 } := by
  induction ids generalizing r n with
  | nil => exact Does.pure _
  | cons id ids ih =>
    have hless : Room r.store ids.length := by
      refine ⟨fun id e he ↦ ?_, hroom.failed.1, ?_⟩
      · have := hroom.recoveries id e he
        rw [List.length_cons] at this
        push_cast at this
        omega
      · have := hroom.failed.2
        rw [List.length_cons] at this
        push_cast at this
        omega
    rw [List.map_cons, reapLoop, Script.reapLoop]
    refine Does.bind does_zremActive ?_
    by_cases hmem : ((r.store.active q).lookup id).isSome
    · have hroom' : Room (r.store.zremActive q id) (ids.length + 1) :=
        ⟨hroom.recoveries, hroom.failed⟩
      rw [hmem, if_pos rfl, if_pos rfl, jobPrefix_append]
      dsimp only
      rcases he : (r.store.zremActive q id).job id with _ | e
      · exact Does.bind (does_not_exists he)
          (Does.ofFalse (ih n ⟨hless.recoveries, hless.failed⟩))
      · dsimp only
        refine Does.bind (does_exists he) (Does.ofTrue (Does.given fun K hK ↦ ?_))
        refine Does.bind (does_recover hclock he (hK.fits he) hroom') ?_
        rcases hspent : spent e.hash.attempt e.hash.maxAttempts with _ | _
        · exact Does.ofFalse (ih (n.1 + 1, n.2) (hroom'.recover he))
        · exact Does.ofTrue (ih (n.1, n.2 + 1) (hroom'.recover he))
    · have hnone : (r.store.active q).lookup id = none := by simpa using hmem
      have hsame : r.store.zremActive q id = r.store := by
        rw [Store.zremActive, Table.erase_of_lookup_eq_none hnone, Function.update_eq_self]
      rw [if_neg hmem, if_neg hmem, hsame]
      exact ih n hless

/-- **reap.lua.** -/
theorem does_reap {limit : ℤ} (hclock : Clock micros) (hpos : 0 ≤ limit) (hlimit : Exact limit)
    (hcount : Counted r.store) (htally : Tallied r.store) :
    Does (Rep ns K₀) r
      (Lua.reap micros
        [ofString (kActive ns q), ofString (kDead ns), ofString (kQueue ns q),
          ofString (kFailed ns)]
        [decimal limit, ofString (pJob ns)])
      (.array [.int (Script.reap r.store (mstime micros) q limit).1.1,
        .int (Script.reap r.store (mstime micros) q limit).1.2])
      { r with store := (Script.reap r.store (mstime micros) q limit).2 } := by
  have hroom :
      Room r.store (Script.dueMembers (r.store.active q) (mstime micros) limit).length := by
    have hlen : (Script.dueMembers (r.store.active q) (mstime micros) limit).length ≤ limit.toNat :=
      List.length_take_le _ _
    have hle := (exact_iff.1 hlimit).2
    refine ⟨fun id e he ↦ ?_, htally.failed.1, ?_⟩
    · have hlt := (hcount id e he).2
      omega
    · have hlt := htally.failed.2
      omega
  refine Does.bind (does_nowMs hclock) (Does.bind (does_tonumber_exact hlimit) ?_)
  rw [luaArg_exact hclock.exact, luaArg_exact hlimit]
  refine Does.bind (does_zrange (k := .active q) (fun _ ho ↦ ho) hclock.exact hpos
    hlimit.int64.2) ?_
  exact Does.bind (does_reapLoop hclock _ (0, 0) hroom) (Does.pure _)

end Reap

/-! ### promote.lua -/

section Promote

variable {id : String} {e : Entry}

/-- One due job of a set. -/
theorem does_promoteLoop (set : Script.WaitSet) (ids : List String) (n : ℕ) :
    Does (Rep ns K₀) r
      (promoteLoop (ofString (pJob ns)) (ofString (pQueue ns)) (key ns (waitKey set))
        (ids.map ofString) n)
      (Script.promoteLoop set ids n r.store).1
      { r with store := (Script.promoteLoop set ids n r.store).2 } := by
  induction ids generalizing r n with
  | nil => exact Does.pure _
  | cons id ids ih =>
    rw [List.map_cons, promoteLoop, Script.promoteLoop]
    refine Does.bind (does_zremWait set) ?_
    by_cases hmem : ((Script.waitSet r.store set).lookup id).isSome
    · rw [hmem, if_pos rfl, if_pos rfl, jobPrefix_append]
      dsimp only
      rcases he : (Script.zremWait r.store set id).job id with _ | e
      · exact Does.bind (does_not_exists he) (Does.ofFalse (ih n))
      · have hset : (fields e.hash).set [("state", ofString "pending"), ("owner", ofString "")] =
            fields { e.hash with state := .pending, owner := "" } :=
          Wire.set_fields (by simp) (by simp [pairs])
        refine Does.bind (does_exists he) (Does.ofTrue (Does.given fun K hK ↦ ?_))
        refine Does.bind (does_hget_queue he) (Does.bind (Does.need _) ?_)
        refine Does.bind (does_hset he hset { hK.fits he with }) ?_
        rw [queuePrefix_append]
        exact Does.bind does_rpush (ih (n + 1))
    · have hnone : (Script.waitSet r.store set).lookup id = none := by simpa using hmem
      have hsame : Script.zremWait r.store set id = r.store := by
        cases set with
        | delayed =>
          rw [Script.zremWait, Table.erase_of_lookup_eq_none (m := r.store.delayed) hnone]
        | retry => rw [Script.zremWait, Table.erase_of_lookup_eq_none (m := r.store.retry) hnone]
      rw [if_neg hmem, if_neg hmem, hsame]
      exact ih n

theorem does_promoteSet {limit : ℤ} (hclock : Clock micros) (hlimit : Exact limit)
    (set : Script.WaitSet) (n : ℕ) :
    Does (Rep ns K₀) r
      (promoteSet (ofString (pJob ns)) (ofString (pQueue ns)) (mstime micros) limit
        (key ns (waitKey set)) n)
      (Script.promoteSet (mstime micros) limit set (n, r.store)).1
      { r with store := (Script.promoteSet (mstime micros) limit set (n, r.store)).2 } := by
  rw [promoteSet, Script.promoteSet]
  by_cases hmore : (n : ℤ) < limit
  · have hrest : Exact (limit - n) := by
      have hle := (exact_iff.1 hlimit).2
      exact exact_iff.2 ⟨by omega, by omega⟩
    rw [if_pos hmore, if_pos hmore, luaNumber_exact hrest, luaArg_exact hrest,
      luaArg_exact hclock.exact]
    refine Does.bind (does_zrangeWait set hclock.exact (by omega) hrest.int64.2) ?_
    exact does_promoteLoop set _ n
  · rw [if_neg hmore, if_neg hmore]
    exact Does.pure _

/-- **promote.lua.** -/
theorem does_promote {limit : ℤ} (hclock : Clock micros) (hlimit : Exact limit) :
    Does (Rep ns K₀) r
      (Lua.promote micros [ofString (kDelayed ns), ofString (kRetry ns)]
        [decimal limit, ofString (pJob ns), ofString (pQueue ns)])
      (.int (Script.promote r.store (mstime micros) limit).1)
      { r with store := (Script.promote r.store (mstime micros) limit).2 } := by
  refine Does.bind (does_nowMs hclock) (Does.bind (does_tonumber_exact hlimit) ?_)
  refine Does.bind (does_promoteSet hclock hlimit .delayed 0) ?_
  exact Does.bind (does_promoteSet hclock hlimit .retry _) (Does.pure _)

end Promote

/-! ### heartbeat.lua, lease_acquire.lua, lease_release.lua, cron_claim.lua -/

section Rest

variable {name owner id : String}

/-- **heartbeat.lua.** -/
theorem does_heartbeat (hclock : Clock micros) {d : Duration} (hd : Int64 d) (w : WorkerInfo) :
    Does (Rep ns K₀) r
      (Lua.heartbeat micros [ofString (kWorkers ns), ofString (kWorker ns w.id)]
        (Wire.heartbeatArgs w d))
      (.int 1)
      { r with fleet :=
        Script.heartbeat r.fleet (mstime micros) (workerHash w) (milliseconds d) } := by
  have hms := milliseconds_lt hd
  have hpos := hclock.mstime_nonneg
  have hearly := hclock.early
  have hprune : Exact (mstime micros - milliseconds d) :=
    exact_iff.2 ⟨by omega, by omega⟩
  refine Does.bind (does_nowMs hclock) ?_
  refine Does.bind (does_tonumber_exact (exact_milliseconds hd)) ?_
  rw [luaArg_exact hclock.exact, luaArg_exact (exact_milliseconds hd), luaNumber_exact hprune,
    luaArg_exact hprune]
  refine Does.bind (does_zaddWorkers hclock.exact) ?_
  refine Does.bind_pair (does_worker w.id { workerHash w with lastBeat := mstime micros }
    (by omega) (by omega)) ?_
  exact Does.bind (does_zremrange hprune) (Does.pure _)

/-- The test of `lease_acquire.lua`. -/
theorem free_or_own_iff {l : Option LeaseKey} :
    (l.map fun l ↦ ofString l.value) = none ∨
      (l.map fun l ↦ ofString l.value) = some (ofString owner) ↔
    l.all (fun l ↦ l.value = owner) = true := by
  rcases l with _ | l
  · simp
  · simp [ofString_inj]

/-- **lease_acquire.lua**, where the `SET` is not refused. -/
theorem does_leaseAcquire (micros : ℤ) {d : Duration} (hd : Int64 d)
    (hset : (r.leases name).all (fun l ↦ l.value = owner) → 0 < milliseconds d) :
    Does (Rep ns K₀) r
      (Lua.leaseAcquire micros [ofString (kLease ns name)]
        [ofString owner, decimal (milliseconds d)])
      (.int (if (r.leases name).all (fun l ↦ l.value = owner) then 1 else 0))
      { r with leases :=
        (Script.leaseAcquire r.leases (mstime micros) name owner (milliseconds d)).2 } := by
  refine Does.bind does_getLease ?_
  by_cases hfree : (r.leases name).all (fun l ↦ l.value = owner) = true
  · have hpos := hset hfree
    have hscript : Script.leaseAcquire r.leases (mstime micros) name owner (milliseconds d) =
        (some true, Function.update r.leases name
          (some ⟨owner, mstime micros + milliseconds d⟩)) := by
      rw [Script.leaseAcquire, if_pos hfree, Script.setPX, if_neg (not_le.2 hpos)]
    rw [hscript, if_pos hfree]
    refine Does.ofPos (free_or_own_iff.2 hfree) ?_
    refine Does.bind (does_tonumber_exact (exact_milliseconds hd)) ?_
    rw [luaArg_exact (exact_milliseconds hd)]
    exact Does.bind (does_setLease hpos (exact_milliseconds hd).int64.2) (Does.pure _)
  · have hscript : Script.leaseAcquire r.leases (mstime micros) name owner (milliseconds d) =
        (some false, r.leases) := by
      rw [Script.leaseAcquire, if_neg hfree]
    rw [hscript, if_neg hfree]
    exact Does.ofNeg (fun h ↦ hfree (free_or_own_iff.1 h)) (Does.pure _)

/-- **lease_release.lua.** -/
theorem does_leaseRelease (name owner : String) :
    Does (Rep ns K₀) r
      (Lua.leaseRelease [ofString (kLease ns name)] [ofString owner])
      (.int (if (r.leases name).any (fun l ↦ l.value = owner) then 1 else 0))
      { r with leases := (Script.leaseRelease r.leases name owner).2 } := by
  refine Does.bind does_getLease ?_
  have hcurrent : ((r.leases name).map fun l ↦ ofString l.value) = some (ofString owner) ↔
      (r.leases name).any (fun l ↦ l.value = owner) = true := by
    rcases r.leases name with _ | l
    · simp
    · simp [ofString_inj]
  by_cases hheld : (r.leases name).any (fun l ↦ l.value = owner) = true
  · rw [Script.leaseRelease, if_pos hheld, if_pos hheld]
    exact Does.ofPos (hcurrent.2 hheld) (Does.bind does_delLease (Does.pure _))
  · rw [Script.leaseRelease, if_neg hheld, if_neg hheld]
    exact Does.ofNeg (fun h ↦ hheld (hcurrent.1 h)) (Does.pure _)

/-- **cron_claim.lua.** -/
theorem does_cronClaim {firedAt nextAt : ℤ} (hfired : Exact firedAt) (hnext : Exact nextAt) :
    Does (Rep ns K₀) r
      (Lua.cronClaim [ofString (kCron ns)] [ofString id, decimal firedAt, decimal nextAt])
      (.int (if (Script.cronClaim r.store id firedAt nextAt).1 then 1 else 0))
      { r with store := (Script.cronClaim r.store id firedAt nextAt).2 } := by
  have hread : Does (Rep ns K₀) r (zscore (key ns .cron) (ofString id))
      ((r.store.cron.lookup id).map decimal) r := by
    refine does_of_read .cron fun K hK ↦ ?_
    have hzset : K (key ns .cron) = zslot r.store.cron := hK.1
    rw [zscore_eq hzset, Table.lookup_rename]
  refine Does.given fun K hK ↦ Does.bind hread ?_
  rcases hscore : r.store.cron.lookup id with _ | score
  · rw [show Script.cronClaim r.store id firedAt nextAt = (false, r.store) by
      rw [Script.cronClaim, hscore]]
    exact Does.pure _
  · refine Does.bind (does_tonumber_exact (hK.cron_exact hscore)) ?_
    refine Does.bind (does_tonumber_exact hfired) ?_
    by_cases hne : score ≠ firedAt
    · rw [show Script.cronClaim r.store id firedAt nextAt = (false, r.store) by
        rw [Script.cronClaim, hscore]
        exact if_pos hne]
      exact Does.ofPos hne (Does.pure _)
    · rw [show Script.cronClaim r.store id firedAt nextAt =
          (true, { r.store with cron := r.store.cron.insert id nextAt }) by
        rw [Script.cronClaim, hscore]
        exact if_neg hne]
      refine Does.ofNeg hne (Does.bind (does_tonumber_exact hnext) ?_)
      rw [luaArg_exact hnext]
      exact Does.bind (does_zaddCron hnext) (Does.pure _)

end Rest

end TaskQueue.Redis
