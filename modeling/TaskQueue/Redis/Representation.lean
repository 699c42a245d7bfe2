import TaskQueue.Redis.RoundTrip

/-!
# What a keyspace stands for

A keyspace **represents** the records of a broker (`Rep`) if under each of its keys there is what
the records say should be there. The layout has fourteen kinds of keys; what the records keep under
one of them is its `Content`, and `Encodes` is how that looks in Redis. Records are written at one
key at a time (`Records.put`), and since no two keys have one text (`Key.text_injective`), writing
a value under a key of Redis is writing its content in the records (`Rep.put`). Every rule for a
command below is an instance of that: it says which content the command reads and which it leaves.

Keys outside the layout of the broker belong to somebody else. They are as they were before
(`Rep.frame`).
-/

namespace TaskQueue.Redis

open Bulk Keyspace
open Wire (Fits fields pairs luaArg)

/-- Everything a broker keeps in Redis. -/
structure Records where
  store : Store
  leases : Leases
  fleet : Fleet

/-- An empty Redis. -/
def Records.empty : Records where
  store := .empty
  leases _ := none
  fleet := .empty

/-! ### Contents -/

/-- What the records keep under a key. -/
def Content : Key → Type
  | .job _ => Option Entry
  | .queue _ => List String
  | .active _ | .delayed | .retry | .dead | .workers | .cron => ZSet
  | .unique _ => Option UniqueKey
  | .queues => Table String Unit
  | .processed | .failed => ℤ
  | .worker _ => Option WorkerEntry
  | .lease _ => Option LeaseKey

namespace Records

variable (r : Records)

def get : (k : Key) → Content k
  | .job id => r.store.job id
  | .queue q => r.store.ready q
  | .active q => r.store.active q
  | .unique k => r.store.unique k
  | .delayed => r.store.delayed
  | .retry => r.store.retry
  | .dead => r.store.dead
  | .queues => r.store.queues
  | .processed => r.store.processed
  | .failed => r.store.failed
  | .workers => r.fleet.workers
  | .worker id => r.fleet.worker id
  | .lease name => r.leases name
  | .cron => r.store.cron

def put : (k : Key) → Content k → Records
  | .job id, c => { r with store := { r.store with job := Function.update r.store.job id c } }
  | .queue q, c => { r with store := { r.store with ready := Function.update r.store.ready q c } }
  | .active q, c =>
    { r with store := { r.store with active := Function.update r.store.active q c } }
  | .unique k, c =>
    { r with store := { r.store with unique := Function.update r.store.unique k c } }
  | .delayed, c => { r with store := { r.store with delayed := c } }
  | .retry, c => { r with store := { r.store with retry := c } }
  | .dead, c => { r with store := { r.store with dead := c } }
  | .queues, c => { r with store := { r.store with queues := c } }
  | .processed, c => { r with store := { r.store with processed := c } }
  | .failed, c => { r with store := { r.store with failed := c } }
  | .workers, c => { r with fleet := { r.fleet with workers := c } }
  | .worker id, c =>
    { r with fleet := { r.fleet with worker := Function.update r.fleet.worker id c } }
  | .lease name, c => { r with leases := Function.update r.leases name c }
  | .cron, c => { r with store := { r.store with cron := c } }

theorem get_put_self (k : Key) (c : Content k) : (r.put k c).get k = c := by
  cases k <;> first | rfl | exact Function.update_self _ _ _

theorem get_put_of_ne {k k' : Key} (c : Content k) (hne : k' ≠ k) :
    (r.put k c).get k' = r.get k' := by
  cases k <;> cases k' <;>
    first
      | rfl
      | exact absurd rfl hne
      | exact Function.update_of_ne (fun h ↦ hne (congrArg _ h)) _ _

/-- The records a script run at `now` sees. -/
def live (visible : ℤ → ℤ → Bool) (now : ℤ) : Records where
  store := r.store.live visible now
  leases := r.leases.live visible now
  fleet := { r.fleet with
    worker := fun id ↦ (r.fleet.worker id).filter fun w ↦ visible now w.expireAt }

end Records

/-! ### Encodings -/

theorem ofString_injective : Function.Injective ofString := fun _ _ h ↦ ofString_inj.1 h

/-- A sorted set under its key. -/
def zslot (z : ZSet) : Option Slot := collection (.zset (z.rename ofString_injective))

/-- A job key. -/
def jobSlot (e : Entry) : Slot := ⟨.hash (fields e.hash), e.expireAt⟩

/-- A key that holds a text for some time. -/
def textSlot (value : String) (expireAt : ℤ) : Slot := ⟨.string (ofString value), some expireAt⟩

/-- The fields of a worker's hash. -/
def workerPairs (w : WorkerHash) : List (String × Bulk) :=
  [("id", ofString w.id),
    ("host", ofString w.host),
    ("pid", decimal w.pid),
    ("queues", ofString w.queues),
    ("concurrency", decimal w.concurrency),
    ("in_flight", decimal w.inFlight),
    ("started_at", decimal w.startedAt),
    ("last_beat", decimal w.lastBeat)]

/-- A worker key. -/
def workerSlot (w : WorkerEntry) : Slot :=
  ⟨.hash (Fields.empty.set (workerPairs w.hash)), some w.expireAt⟩

/-- How a content looks in Redis. -/
def Encodes : (k : Key) → Content k → Option Slot → Prop
  | .job _, c, o => o = Option.map jobSlot c ∧ ∀ e, c = some e → Fits e.hash
  | .queue _, c, o => o = collection (.list (c.map ofString))
  | .active _, c, o | .delayed, c, o | .retry, c, o | .dead, c, o | .workers, c, o => o = zslot c
  -- the scores are read back, so what doubles make of them matters
  | .cron, c, o => o = zslot c ∧ ∀ id score, AList.lookup id c = some score → |score| ≤ 2 ^ 53
  | .unique _, c, o => o = Option.map (fun u : UniqueKey ↦ textSlot u.value u.expireAt) c
  | .queues, c, o => o = collection (.set (Table.rename ofString_injective c))
  | .processed, c, o | .failed, c, o => IsCounter o c
  | .worker _, c, o => o = Option.map workerSlot c
  | .lease _, c, o => o = Option.map (fun l : LeaseKey ↦ textSlot l.value l.expireAt) c

/-- The bytes of a key. -/
def key (ns : String) (k : Key) : Bulk := ofString (k.text ns)

theorem key_injective (ns : String) : Function.Injective (key ns) :=
  ofString_injective.comp (Key.text_injective ns)

/-- The keyspace holds the records of the broker with this namespace, and beside them what `K₀`
holds. -/
structure Rep (ns : String) (K₀ K : Keyspace) (r : Records) : Prop where
  holds : ∀ k, Encodes k (r.get k) (K (key ns k))
  frame : ∀ b, (∀ k, b ≠ key ns k) → K b = K₀ b

variable {ns : String} {K₀ K : Keyspace} {r : Records}

/-- **Writing under a key.** -/
theorem Rep.put (hK : Rep ns K₀ K r) {k : Key} {c : Content k} {o : Option Slot}
    (hc : Encodes k c o) : Rep ns K₀ (Function.update K (key ns k) o) (r.put k c) where
  holds k' := by
    by_cases hk : k' = k
    · subst hk
      rw [r.get_put_self, Function.update_self]
      exact hc
    · rw [r.get_put_of_ne c hk, Function.update_of_ne ((key_injective ns).ne hk)]
      exact hK.holds k'
  frame b hb := by
    rw [Function.update_of_ne (hb k)]
    exact hK.frame b hb

/-- A command that writes under a key, whatever stands for its content before. -/
theorem does_of_write {k : Key} {c : Content k} {o : Option Slot} {α : Type} {x : Prog α} {a : α}
    (hc : Encodes k c o)
    (hx : ∀ K : Keyspace, Encodes k (r.get k) (K (key ns k)) →
      x.run K = (.ok a, Function.update K (key ns k) o)) :
    Does (Rep ns K₀) r x a (r.put k c) :=
  fun K hK ↦ ⟨_, hx K (hK.holds k), hK.put hc⟩

/-- A command that reads under a key. -/
theorem does_of_read (k : Key) {α : Type} {x : Prog α} {a : α}
    (hx : ∀ K : Keyspace, Encodes k (r.get k) (K (key ns k)) → x.run K = (.ok a, K)) :
    Does (Rep ns K₀) r x a r :=
  Does.reads fun K hK ↦ hx K (hK.holds k)

/-! ### Job keys -/

section JobKeys

variable {id : String} {e : Entry} {l : List (String × Bulk)}

theorem Rep.fits (hK : Rep ns K₀ K r) (he : r.store.job id = some e) : Fits e.hash :=
  (hK.holds (.job id)).2 e he

theorem slot_of_job {o : Option Slot} (ho : Encodes (.job id) (r.get (.job id)) o)
    (he : r.store.job id = some e) : o = some ⟨.hash (fields e.hash), e.expireAt⟩ := by
  have hslot := ho.1
  rw [show r.get (.job id) = some e from he] at hslot
  exact hslot

theorem does_exists (he : r.store.job id = some e) :
    Does (Rep ns K₀) r (existsKey (key ns (.job id))) true r := by
  refine does_of_read (.job id) fun K hK ↦ ?_
  rw [existsKey_eq, slot_of_job hK he]
  rfl

theorem does_not_exists (he : r.store.job id = none) :
    Does (Rep ns K₀) r (existsKey (key ns (.job id))) false r := by
  refine does_of_read (.job id) fun K hK ↦ ?_
  have hslot := hK.1
  rw [show r.get (.job id) = none from he] at hslot
  rw [existsKey_eq, hslot]
  rfl

theorem does_hget (he : r.store.job id = some e) {p : String × Bulk} (hp : p ∈ pairs e.hash) :
    Does (Rep ns K₀) r (hget (key ns (.job id)) p.1) (some p.2) r := by
  refine does_of_read (.job id) fun K hK ↦ ?_
  rw [hget_eq (slot_of_job hK he), fields, Fields.set_of_mem (Wire.pairs_nodup _) hp]

/-- `HGET job 'id'`, and so on. -/
theorem does_hget_id (he : r.store.job id = some e) :
    Does (Rep ns K₀) r (hget (key ns (.job id)) "id") (some (ofString e.hash.id)) r :=
  does_hget (p := ("id", ofString e.hash.id)) he (by simp [pairs])

theorem does_hget_queue (he : r.store.job id = some e) :
    Does (Rep ns K₀) r (hget (key ns (.job id)) "queue") (some (ofString e.hash.queue)) r :=
  does_hget (p := ("queue", ofString e.hash.queue)) he (by simp [pairs])

theorem does_hget_state (he : r.store.job id = some e) :
    Does (Rep ns K₀) r (hget (key ns (.job id)) "state")
      (some (ofString (Wire.stateText e.hash.state))) r :=
  does_hget (p := ("state", ofString (Wire.stateText e.hash.state))) he (by simp [pairs])

theorem does_hget_owner (he : r.store.job id = some e) :
    Does (Rep ns K₀) r (hget (key ns (.job id)) "owner") (some (ofString e.hash.owner)) r :=
  does_hget (p := ("owner", ofString e.hash.owner)) he (by simp [pairs])

theorem does_hget_attempt (he : r.store.job id = some e) :
    Does (Rep ns K₀) r (hget (key ns (.job id)) "attempt") (some (decimal e.hash.attempt)) r :=
  does_hget (p := ("attempt", decimal e.hash.attempt)) he (by simp [pairs])

theorem does_hget_maxAttempts (he : r.store.job id = some e) :
    Does (Rep ns K₀) r (hget (key ns (.job id)) "max_attempts")
      (some (decimal e.hash.maxAttempts)) r :=
  does_hget (p := ("max_attempts", decimal e.hash.maxAttempts)) he (by simp [pairs])

/-- `HSET` on a job that is there. -/
theorem does_hset {h : Hash} (he : r.store.job id = some e)
    (hl : (fields e.hash).set l = fields h) (hfits : Fits h) :
    Does (Rep ns K₀) r (hset (key ns (.job id)) l) ()
      { r with store := r.store.hset id h } := by
  have hput : { r with store := r.store.hset id h } = r.put (.job id) (some ⟨h, e.expireAt⟩) := by
    rw [Store.hset, he]
    rfl
  rw [hput]
  refine does_of_write (o := some (jobSlot ⟨h, e.expireAt⟩)) ⟨rfl, ?_⟩ fun K hK ↦ ?_
  · rintro _ ⟨⟩
    exact hfits
  · rw [hset_eq (slot_of_job hK he), hl]
    rfl

/-- `HSET` of all fields, whether the job is there or not. -/
theorem does_hset_all (id : String) {h : Hash} (hfits : Fits h) :
    Does (Rep ns K₀) r (hset (key ns (.job id)) (pairs h)) ()
      { r with store := r.store.hset id h } := by
  rcases he : r.store.job id with _ | e
  · have hput : { r with store := r.store.hset id h } = r.put (.job id) (some ⟨h, none⟩) := by
      rw [Store.hset, he]
      rfl
    rw [hput]
    refine does_of_write (o := some (jobSlot ⟨h, none⟩)) ⟨rfl, ?_⟩ fun K hK ↦ ?_
    · rintro _ ⟨⟩
      exact hfits
    · have hslot := hK.1
      rw [show r.get (.job id) = none from he] at hslot
      exact hset_of_none hslot
  · refine does_hset he (Wire.set_fields (Wire.pairs_nodup h) fun p hp ↦ ?_) hfits
    exact (List.mem_map_of_mem hp : p.1 ∈ (pairs h).map Prod.fst)

/-- `HINCRBY` on a field of a job. -/
theorem does_hincrby {field : String} {n m : ℤ} {h : Hash} (he : r.store.job id = some e)
    (hp : (field, decimal n) ∈ pairs e.hash)
    (hl : (fields e.hash).set [(field, decimal (n + m))] = fields h) (hfits : Fits h)
    (hn : -2 ^ 63 ≤ n ∧ n < 2 ^ 63) (hnm : -2 ^ 63 ≤ n + m ∧ n + m < 2 ^ 63) :
    Does (Rep ns K₀) r (hincrby (key ns (.job id)) field m) ()
      { r with store := r.store.hset id h } := by
  have hput : { r with store := r.store.hset id h } = r.put (.job id) (some ⟨h, e.expireAt⟩) := by
    rw [Store.hset, he]
    rfl
  rw [hput]
  refine does_of_write (o := some (jobSlot ⟨h, e.expireAt⟩)) ⟨rfl, ?_⟩ fun K hK ↦ ?_
  · rintro _ ⟨⟩
    exact hfits
  · rw [hincrby_eq (slot_of_job hK he) (Fields.set_of_mem (Wire.pairs_nodup _) hp) hn.1 hn.2 hnm.1
      hnm.2, hl]
    rfl

theorem does_hgetall (listing : Listing) {h : Hash} {expireAt : Option ℤ}
    (he : r.store.job id = some ⟨h, expireAt⟩) :
    Does (Rep ns K₀) r (hgetall listing (key ns (.job id))) (listing.list (fields h)) r := by
  refine does_of_read (.job id) fun K hK ↦ ?_
  have hslot := slot_of_job hK he
  exact hgetall_eq listing hslot

theorem does_del :
    Does (Rep ns K₀) r (del (key ns (.job id))) () { r with store := r.store.del id } :=
  does_of_write (k := .job id) (c := none) ⟨rfl, fun _ h ↦ by cases h⟩ fun _ _ ↦ del_eq

theorem does_pexpire {now ttl : ℤ} (he : r.store.job id = some e) (hfits : Fits e.hash)
    (hpos : 0 < ttl) (hlt : ttl < 2 ^ 63) :
    Does (Rep ns K₀) r (pexpire now (key ns (.job id)) (decimal ttl)) ()
      { r with store := r.store.pexpire id (now + ttl) } := by
  have hput : { r with store := r.store.pexpire id (now + ttl) } =
      r.put (.job id) (some ⟨e.hash, some (now + ttl)⟩) := by
    rw [Store.pexpire, he]
    rfl
  rw [hput]
  refine does_of_write (o := some (jobSlot ⟨e.hash, some (now + ttl)⟩)) ⟨rfl, ?_⟩ fun K hK ↦ ?_
  · rintro _ ⟨⟩
    exact hfits
  · rw [pexpire_eq hpos hlt (slot_of_job hK he)]
    rfl

end JobKeys

/-! ### Lists, sets and counters -/

section Others

variable {q id : String} {n : ℤ}

theorem does_rpush :
    Does (Rep ns K₀) r (rpush (key ns (.queue q)) (ofString id)) ()
      { r with store := r.store.rpush q id } := by
  refine does_of_write (k := .queue q) (c := r.store.ready q ++ [id]) rfl fun K hK ↦ ?_
  rw [rpush_eq hK, List.map_append]
  rfl

theorem does_lpush :
    Does (Rep ns K₀) r (lpush (key ns (.queue q)) (ofString id)) ()
      { r with store := r.store.lpush q id } :=
  does_of_write (k := .queue q) (c := id :: r.store.ready q) rfl fun _ hK ↦ lpush_eq hK

theorem does_lpop_nil (hq : r.store.ready q = []) :
    Does (Rep ns K₀) r (lpop (key ns (.queue q))) none r := by
  refine does_of_read (.queue q) fun K hK ↦ lpop_nil ?_
  rw [show r.get (.queue q) = [] from hq] at hK
  exact hK

theorem does_lpop_cons {ids : List String} (hq : r.store.ready q = id :: ids) :
    Does (Rep ns K₀) r (lpop (key ns (.queue q))) (some (ofString id))
      { r with store := r.store.lpop q } := by
  have hput : { r with store := r.store.lpop q } = r.put (.queue q) ids := by
    rw [Store.lpop, hq]
    rfl
  rw [hput]
  refine does_of_write rfl fun K hK ↦ ?_
  rw [show r.get (.queue q) = id :: ids from hq] at hK
  exact lpop_cons hK

theorem does_sadd :
    Does (Rep ns K₀) r (sadd (key ns .queues) (ofString q)) ()
      { r with store := { r.store with queues := r.store.queues.insert q () } } := by
  refine does_of_write (k := .queues) (c := r.store.queues.insert q ()) rfl fun K hK ↦ ?_
  have hset : K (key ns .queues) =
      collection (.set (Table.rename ofString_injective r.store.queues)) := hK
  rw [sadd_eq hset, Table.insert_rename]

theorem does_incr_processed (hlow : 0 ≤ r.store.processed) (hhigh : r.store.processed < 2 ^ 62) :
    Does (Rep ns K₀) r (incr (key ns .processed)) (r.store.processed + 1)
      { r with store := { r.store with processed := r.store.processed + 1 } } :=
  does_of_write (k := .processed) (c := r.store.processed + 1) (.inr rfl)
    fun _ hK ↦ incr_eq hK (by omega) (by omega)

theorem does_incr_failed (hlow : 0 ≤ r.store.failed) (hhigh : r.store.failed + 1 < 2 ^ 63) :
    Does (Rep ns K₀) r (incr (key ns .failed)) (r.store.failed + 1)
      { r with store := { r.store with failed := r.store.failed + 1 } } :=
  does_of_write (k := .failed) (c := r.store.failed + 1) (.inr rfl)
    fun _ hK ↦ incr_eq hK (by omega) hhigh

end Others

/-! ### Sorted sets -/

section SortedSets

variable {k : Key} {c : Content k} {z : ZSet} {id : String} {n : ℤ}

/-- `ZADD`, for any key that holds a sorted set. -/
theorem does_zadd (hz : ∀ o, Encodes k (r.get k) o → o = zslot z)
    (hc : Encodes k c (zslot (z.insert id n))) (hexact : |n| ≤ 2 ^ 53) :
    Does (Rep ns K₀) r (zadd (key ns k) (decimal n) (ofString id)) () (r.put k c) := by
  refine does_of_write hc fun K hK ↦ ?_
  rw [zadd_eq (hz _ hK) hexact, Table.insert_rename]
  rfl

/-- `ZREM` -/
theorem does_zrem (hz : ∀ o, Encodes k (r.get k) o → o = zslot z)
    (hc : Encodes k c (zslot (z.erase id))) :
    Does (Rep ns K₀) r (zrem (key ns k) (ofString id)) (z.lookup id).isSome (r.put k c) := by
  refine does_of_write hc fun K hK ↦ ?_
  have hlook := Table.lookup_rename ofString_injective z id
  rcases hm : z.lookup id with _ | m
  · have hsame : Function.update K (key ns k) (zslot (z.erase id)) = K := by
      rw [Table.erase_of_lookup_eq_none hm, ← hz _ hK, Function.update_eq_self]
    rw [zrem_of_none (hz _ hK) (hlook.trans hm), hsame]
    rfl
  · rw [zrem_of_some (hz _ hK) (by rw [hlook, hm]; rfl), Table.erase_rename]
    rfl

/-- `ZRANGEBYSCORE key -inf now LIMIT 0 limit` -/
theorem does_zrange {now limit : ℤ} (hz : ∀ o, Encodes k (r.get k) o → o = zslot z)
    (hexact : |now| ≤ 2 ^ 53) (hlimit : 0 ≤ limit) (hlt : limit < 2 ^ 63) :
    Does (Rep ns K₀) r (zrange (key ns k) (decimal now) (decimal limit))
      ((Script.dueMembers z now limit).map ofString) r := by
  refine does_of_read k fun K hK ↦ ?_
  rw [zrange_eq (hz _ hK) hexact hlimit hlt, Table.due_rename ofString_strictMono,
    Script.dueMembers, Table.keysOf, Table.keysOf, List.map_take, List.map_map, List.map_map]
  rfl

variable {q : String}

/-- The sorted sets by name. -/
theorem does_zaddActive (hexact : |n| ≤ 2 ^ 53) :
    Does (Rep ns K₀) r (zadd (key ns (.active q)) (decimal n) (ofString id)) ()
      { r with store := r.store.zaddActive q id n } :=
  does_zadd (k := .active q) (c := (r.store.active q).insert id n) (fun _ ho ↦ ho) rfl hexact

theorem does_zremActive :
    Does (Rep ns K₀) r (zrem (key ns (.active q)) (ofString id))
      ((r.store.active q).lookup id).isSome { r with store := r.store.zremActive q id } :=
  does_zrem (k := .active q) (c := (r.store.active q).erase id) (fun _ ho ↦ ho) rfl

theorem does_zaddDelayed (hexact : |n| ≤ 2 ^ 53) :
    Does (Rep ns K₀) r (zadd (key ns .delayed) (decimal n) (ofString id)) ()
      { r with store := { r.store with delayed := r.store.delayed.insert id n } } :=
  does_zadd (k := .delayed) (c := r.store.delayed.insert id n) (fun _ ho ↦ ho) rfl hexact

theorem does_zaddRetry (hexact : |n| ≤ 2 ^ 53) :
    Does (Rep ns K₀) r (zadd (key ns .retry) (decimal n) (ofString id)) ()
      { r with store := { r.store with retry := r.store.retry.insert id n } } :=
  does_zadd (k := .retry) (c := r.store.retry.insert id n) (fun _ ho ↦ ho) rfl hexact

theorem does_zaddDead (hexact : |n| ≤ 2 ^ 53) :
    Does (Rep ns K₀) r (zadd (key ns .dead) (decimal n) (ofString id)) ()
      { r with store := { r.store with dead := r.store.dead.insert id n } } :=
  does_zadd (k := .dead) (c := r.store.dead.insert id n) (fun _ ho ↦ ho) rfl hexact

theorem Rep.cron_exact (hK : Rep ns K₀ K r) (hn : r.store.cron.lookup id = some n) :
    |n| ≤ 2 ^ 53 :=
  (hK.holds .cron).2 id n hn

theorem cron_exact_insert (hold : ∀ id n, r.store.cron.lookup id = some n → |n| ≤ 2 ^ 53)
    (hexact : |n| ≤ 2 ^ 53) :
    Encodes .cron (r.store.cron.insert id n) (zslot (r.store.cron.insert id n)) := by
  refine ⟨rfl, fun id' m hm ↦ ?_⟩
  rw [Table.lookup_insert_eq] at hm
  split_ifs at hm
  · obtain rfl := Option.some.inj hm
    exact hexact
  · exact hold id' m hm

theorem does_zaddCron (hexact : |n| ≤ 2 ^ 53) :
    Does (Rep ns K₀) r (zadd (key ns .cron) (decimal n) (ofString id)) ()
      { r with store := { r.store with cron := r.store.cron.insert id n } } :=
  Does.given fun _ hK ↦ does_zadd (k := .cron) (c := r.store.cron.insert id n)
    (fun _ ho ↦ ho.1) (cron_exact_insert (fun _ _ hn ↦ hK.cron_exact hn) hexact) hexact

/-- The key of one of the sets that `promote.lua` drains. -/
def waitKey : Script.WaitSet → Key
  | .delayed => .delayed
  | .retry => .retry

theorem does_zremWait (set : Script.WaitSet) :
    Does (Rep ns K₀) r (zrem (key ns (waitKey set)) (ofString id))
      ((Script.waitSet r.store set).lookup id).isSome
      { r with store := Script.zremWait r.store set id } := by
  cases set with
  | delayed =>
    exact does_zrem (k := .delayed) (c := r.store.delayed.erase id) (fun _ ho ↦ ho) rfl
  | retry => exact does_zrem (k := .retry) (c := r.store.retry.erase id) (fun _ ho ↦ ho) rfl

theorem does_zrangeWait (set : Script.WaitSet) {now limit : ℤ} (hexact : |now| ≤ 2 ^ 53)
    (hlimit : 0 ≤ limit) (hlt : limit < 2 ^ 63) :
    Does (Rep ns K₀) r (zrange (key ns (waitKey set)) (decimal now) (decimal limit))
      ((Script.dueMembers (Script.waitSet r.store set) now limit).map ofString) r := by
  cases set with
  | delayed => exact does_zrange (k := .delayed) (fun _ ho ↦ ho) hexact hlimit hlt
  | retry => exact does_zrange (k := .retry) (fun _ ho ↦ ho) hexact hlimit hlt

end SortedSets

/-! ### Unique keys and leases -/

section Texts

variable {key₀ id name owner : String} {now ttl : ℤ}

theorem does_setNXPX_free (hpos : 0 < ttl) (hlt : ttl < 2 ^ 63)
    (hu : r.store.unique key₀ = none) :
    Does (Rep ns K₀) r (setNXPX now (key ns (.unique key₀)) (ofString id) (decimal ttl)) true
      { r with store := { r.store with
        unique := Function.update r.store.unique key₀ (some ⟨id, now + ttl⟩) } } := by
  refine does_of_write (k := .unique key₀) (c := some ⟨id, now + ttl⟩) rfl fun K hK ↦ ?_
  rw [show r.get (.unique key₀) = none from hu] at hK
  exact setNXPX_of_none hpos hlt hK

theorem does_setNXPX_held (hpos : 0 < ttl) (hlt : ttl < 2 ^ 63) {u : UniqueKey}
    (hu : r.store.unique key₀ = some u) :
    Does (Rep ns K₀) r (setNXPX now (key ns (.unique key₀)) (ofString id) (decimal ttl)) false
      r := by
  refine does_of_read (.unique key₀) fun K hK ↦ ?_
  rw [show r.get (.unique key₀) = some u from hu] at hK
  exact setNXPX_of_some hpos hlt hK

theorem does_getUnique {u : UniqueKey} (hu : r.store.unique key₀ = some u) :
    Does (Rep ns K₀) r (get (key ns (.unique key₀))) (some (ofString u.value)) r := by
  refine does_of_read (.unique key₀) fun K hK ↦ ?_
  rw [show r.get (.unique key₀) = some u from hu] at hK
  exact get_of_some hK

theorem get_lease (hK : Rep ns K₀ K r) :
    (get (key ns (.lease name))).run K =
      (.ok ((r.leases name).map fun l ↦ ofString l.value), K) := by
  have hslot : K (key ns (.lease name)) =
      (r.leases name).map fun l ↦ textSlot l.value l.expireAt := hK.holds (.lease name)
  rcases hl : r.leases name with _ | l
  · rw [hl] at hslot
    exact get_of_none hslot
  · rw [hl] at hslot
    exact get_of_some hslot

theorem does_getLease :
    Does (Rep ns K₀) r (get (key ns (.lease name)))
      ((r.leases name).map fun l ↦ ofString l.value) r :=
  Does.reads fun _ hK ↦ get_lease hK

theorem does_setLease (hpos : 0 < ttl) (hlt : ttl < 2 ^ 63) :
    Does (Rep ns K₀) r (setPX now (key ns (.lease name)) (ofString owner) (decimal ttl)) ()
      { r with leases := Function.update r.leases name (some ⟨owner, now + ttl⟩) } :=
  does_of_write (k := .lease name) (c := some ⟨owner, now + ttl⟩) rfl
    fun _ _ ↦ setPX_eq hpos hlt

theorem does_delLease :
    Does (Rep ns K₀) r (del (key ns (.lease name))) ()
      { r with leases := Function.update r.leases name none } :=
  does_of_write (k := .lease name) (c := none) rfl fun _ _ ↦ del_eq

end Texts

/-! ### Workers -/

section Workers

variable {id : String} {now ttl n : ℤ}

theorem does_zaddWorkers (hexact : |n| ≤ 2 ^ 53) :
    Does (Rep ns K₀) r (zadd (key ns .workers) (decimal n) (ofString id)) ()
      { r with fleet := { r.fleet with workers := r.fleet.workers.insert id n } } :=
  does_zadd (k := .workers) (c := r.fleet.workers.insert id n) (fun _ ho ↦ ho) rfl hexact

theorem does_zremrange (hexact : |n| ≤ 2 ^ 53) :
    Does (Rep ns K₀) r (zremrange (key ns .workers) (decimal n)) ()
      { r with fleet := { r.fleet with
        workers := Table.select (fun sc ↦ decide (n < sc)) r.fleet.workers } } := by
  refine does_of_write (k := .workers)
    (c := Table.select (fun sc ↦ decide (n < sc)) r.fleet.workers) rfl fun K hK ↦ ?_
  have hzset : K (key ns .workers) = zslot r.fleet.workers := hK
  rw [zremrange_eq hzset hexact, Table.select_rename]
  rfl

/-- `HSET` of all fields of a worker, and the `PEXPIRE` behind it: between the two the hash may
have an expiry that nothing in the records stands for. -/
theorem does_worker (id : String) (w : WorkerHash) (hlow : -2 ^ 63 ≤ ttl) (hlt : ttl < 2 ^ 63) :
    Does (Rep ns K₀) r
      (do
        hset (key ns (.worker id)) (workerPairs w)
        pexpire now (key ns (.worker id)) (decimal ttl)) ()
      { r with fleet := { r.fleet with
        worker := Function.update r.fleet.worker id
          (if ttl ≤ 0 then none else some ⟨w, now + ttl⟩) } } := by
  have hwrite : ∀ K : Keyspace,
      Encodes (.worker id) (r.get (.worker id)) (K (key ns (.worker id))) →
      ∃ e, (hset (key ns (.worker id)) (workerPairs w)).run K = (.ok (), Function.update K
        (key ns (.worker id)) (some ⟨.hash (Fields.empty.set (workerPairs w)), e⟩)) := by
    intro K hK
    have hslot : K (key ns (.worker id)) = (r.fleet.worker id).map workerSlot := hK
    rcases hw : r.fleet.worker id with _ | e
    · rw [hw] at hslot
      exact ⟨none, hset_of_none hslot⟩
    · rw [hw] at hslot
      refine ⟨some e.expireAt, (hset_eq hslot).trans ?_⟩
      rw [Fields.set_set (by simp [workerPairs]) (by simp [workerPairs]) (by simp [workerPairs])]
      rfl
  by_cases hneg : ttl ≤ 0
  · rw [if_pos hneg]
    refine does_of_write (k := .worker id) (c := none) rfl fun K hK ↦ ?_
    obtain ⟨e, hrun⟩ := hwrite K hK
    rw [bind_ok hrun, pexpire_of_nonpos hlow hneg, Function.update_idem]
    rfl
  · rw [if_neg hneg]
    refine does_of_write (k := .worker id) (c := some ⟨w, now + ttl⟩) rfl fun K hK ↦ ?_
    obtain ⟨e, hrun⟩ := hwrite K hK
    rw [bind_ok hrun, pexpire_eq (by omega) hlt (Function.update_self _ _ _),
      Function.update_idem]
    rfl

end Workers

end TaskQueue.Redis
