import TaskQueue.Data.Fields
import TaskQueue.Memory.Unique
import TaskQueue.Scheduler.Ticks

/-!
# The keys of ticks

`cronUniqueKey` splices the ID of an entry, as it is, between `cron:` and the milliseconds of the
fire time. The ID may hold colons and digits of its own, so the first colons of a key say nothing.
**The last colon is the one before the number**, since a number is written without colons: a key
that is cut there gives back the ID and the milliseconds.

**Bytes.** A Go string is any sequence of bytes, and `UnixMilli` is an `int64` that wraps.
`cronUniqueKeyBytes` is the key at that level, and `cronUniqueKey` its reading as a text
(`ofString_cronUniqueKey`), for every time whose milliseconds fit.

**Entries.** Redis keeps fire times in whole milliseconds, so two ticks that were read back from it
have the same key only if they are the same (`dueCron_whole`). In both brokers the entry under a key
was put there by a call that submitted a job with that very key (`holder_of_run`), so what holds the
key of a tick, and what a refused tick is a duplicate of, is never the job of another tick.
-/

namespace TaskQueue.Scheduler

open Bulk

variable {id id' : Bulk} {t t' : Time} {d d' : DueCronEntry}

/-! ### Bytes -/

/-- The milliseconds of the time fit in an `int64`. -/
def Representable (t : Time) : Prop := -2 ^ 63 ≤ Redis.unixMilli t ∧ Redis.unixMilli t < 2 ^ 63

/-- `cronUniqueKey`, of an ID that is any byte string. -/
def cronUniqueKeyBytes (id : Bulk) (fireAt : Time) : Bulk :=
  ofString "cron:" ++ id ++ ofString ":" ++ decimal (Int64.ofInt (Redis.unixMilli fireAt)).toInt

theorem cronUniqueKeyBytes_eq (id : Bulk) (ht : Representable t) :
    cronUniqueKeyBytes id t = (ofString "cron:" ++ id) ++ 58 :: decimal (Redis.unixMilli t) := by
  have hcolon : ofString ":" = [58] := by decide
  rw [cronUniqueKeyBytes, Int64.toInt_ofInt_of_le ht.1 ht.2, hcolon, List.append_assoc,
    List.singleton_append]

/-- **Keys are taken apart at their last colon.** -/
theorem cronUniqueKeyBytes_inj (ht : Representable t) (ht' : Representable t') :
    cronUniqueKeyBytes id t = cronUniqueKeyBytes id' t' ↔
      id = id' ∧ Redis.unixMilli t = Redis.unixMilli t' := by
  rw [cronUniqueKeyBytes_eq id ht, cronUniqueKeyBytes_eq id' ht',
    numbered_inj (by decide) (by decide), List.append_cancel_left_eq]

theorem ofString_cronUniqueKey (id : String) (ht : Representable t) :
    ofString (cronUniqueKey id t) = cronUniqueKeyBytes (ofString id) t := by
  rw [cronUniqueKey, ofString_append, ofString_append, ofString_append, cronUniqueKeyBytes,
    Int64.toInt_ofInt_of_le ht.1 ht.2, decimal]

/-! ### Ticks -/

/-- The same entry and the same millisecond. -/
structure SameTick (d d' : DueCronEntry) : Prop where
  id : d.id = d'.id
  fireAt : Redis.unixMilli d.fireAt = Redis.unixMilli d'.fireAt

theorem cronUniqueKey_eq_iff :
    cronUniqueKey d.id d.fireAt = cronUniqueKey d'.id d'.fireAt ↔ SameTick d d' := by
  rw [cronUniqueKey_inj]
  exact ⟨fun h ↦ ⟨h.1, h.2⟩, fun h ↦ ⟨h.id, h.fireAt⟩⟩

/-- A fire time that was read back from Redis is a whole number of milliseconds. -/
theorem dueCron_whole {s : Redis.Store} {now limit : ℤ} (hd : d ∈ Redis.dueCron s now limit) :
    Redis.unixMilli d.fireAt * millisecond = d.fireAt := by
  rw [Redis.dueCron] at hd
  split_ifs at hd
  · cases hd
  · obtain ⟨c, -, rfl⟩ := List.mem_map.1 hd
    rw [Redis.unixMilli, Int.mul_ediv_cancel _ (by decide)]

/-- **Ticks that were read back from Redis** are the same if their keys are. -/
theorem cronUniqueKey_dueCron {s s' : Redis.Store} {now now' limit limit' : ℤ}
    (hd : d ∈ Redis.dueCron s now limit) (hd' : d' ∈ Redis.dueCron s' now' limit') :
    cronUniqueKey d.id d.fireAt = cronUniqueKey d'.id d'.fireAt ↔ d = d' := by
  rw [cronUniqueKey_eq_iff]
  constructor
  · intro hsame
    have hfire : d.fireAt = d'.fireAt := by
      rw [← dueCron_whole hd, hsame.fireAt, dueCron_whole hd']
    obtain ⟨i, f⟩ := d
    obtain ⟨i', f'⟩ := d'
    obtain rfl : i = i' := hsame.id
    obtain rfl : f = f' := hfire
    rfl
  · rintro rfl
    exact ⟨rfl, rfl⟩

/-! ### The entries of the brokers -/

/-- The job was submitted under the key of the tick `d`, and for no other tick. -/
structure OfTick (d : DueCronEntry) (j : Job) : Prop where
  key : j.uniqueKey = cronUniqueKey d.id d.fireAt
  tick : ∀ ce d', j = tickJob ce d' → SameTick d' d

theorem ofTick_of_key {j : Job} (hkey : j.uniqueKey = cronUniqueKey d.id d.fireAt) :
    OfTick d j := by
  refine ⟨hkey, ?_⟩
  rintro ce d' rfl
  exact cronUniqueKey_eq_iff.1 hkey

/-- What the unique entries of ticks are in the Redis broker after the turns `h`. -/
structure RedisApart (cfg : Redis.Config) (h : List (Turn Redis.Store Redis.Call))
    (s : Redis.Store) : Prop where
  /-- The entry of a tick is held by a job that was stored under its key, for no other tick. -/
  held : ∀ d u, s.unique (cronUniqueKey d.id d.fireAt) = some u →
    ∃ t ∈ h, ∃ j, Redis.Submits cfg t j u.value ∧ OfTick d j
  /-- A refused tick is a duplicate of a job that was stored under its key, for no other tick. -/
  refused : ∀ now newID wall ce d k jobID,
    (Redis.exec cfg s ⟨now, .enqueue newID wall (some (tickJob ce d))⟩).1 =
      .failed (.duplicate k jobID) →
    ∃ t ∈ h, ∃ j, Redis.Submits cfg t j jobID ∧ OfTick d j
  /-- The entries of other ticks stay as they are. -/
  kept : ∀ now newID wall ce d d', ¬ SameTick d d' →
    (Redis.exec cfg s ⟨now, .enqueue newID wall (some (tickJob ce d))⟩).2.unique
        (cronUniqueKey d'.id d'.fireAt) =
      (s.live cfg.visible now).unique (cronUniqueKey d'.id d'.fireAt)

/-- The same of the in-memory broker. -/
structure MemoryApart (h : List (Turn Memory.Broker Memory.Call)) (b : Memory.Broker) : Prop where
  /-- The entry of a tick is held by a job that was stored under its key, for no other tick. -/
  held : ∀ now d jobID, b.uniqueHolder now (cronUniqueKey d.id d.fireAt) = some jobID →
    ∃ t ∈ h, ∃ j, Memory.Submits t j jobID ∧ OfTick d j
  /-- A refused tick is a duplicate of a job that was stored under its key, for no other tick. -/
  refused : ∀ now newID ce d k jobID,
    (Memory.exec b ⟨now, .enqueue newID (some (tickJob ce d))⟩).1 = .failed (.duplicate k jobID) →
    ∃ t ∈ h, ∃ j, Memory.Submits t j jobID ∧ OfTick d j
  /-- The entries of other ticks stay as they are. -/
  kept : ∀ now newID ce d d', ¬ SameTick d d' →
    (Memory.exec b ⟨now, .enqueue newID (some (tickJob ce d))⟩).2.unique.lookup
        (cronUniqueKey d'.id d'.fireAt) =
      b.unique.lookup (cronUniqueKey d'.id d'.fireAt)

theorem redisApart {cfg : Redis.Config} {h : List (Turn Redis.Store Redis.Call)} {s : Redis.Store}
    (hrun : (Redis.machine cfg).Run (fun _ _ _ ↦ True) h s) : RedisApart cfg h s where
  held d u hu := by
    obtain ⟨t, ht, j, hsubmits, hkey⟩ := Redis.holder_of_run hrun hu
    exact ⟨t, ht, j, hsubmits, ofTick_of_key hkey⟩
  refused now newID wall ce d k jobID hreply := by
    obtain ⟨t, ht, j, hsubmits, hkey⟩ := Redis.original_of_run hrun rfl hreply
    exact ⟨t, ht, j, hsubmits, ofTick_of_key hkey⟩
  kept now newID wall ce d d' hother := by
    refine Redis.unique_run fun newID' wall' j hop hkey ↦ hother ?_
    cases hop
    exact cronUniqueKey_eq_iff.1 hkey

theorem memoryApart {h : List (Turn Memory.Broker Memory.Call)} {b : Memory.Broker}
    (hrun : Memory.machine.Run (fun _ _ _ ↦ True) h b) : MemoryApart h b where
  held now d jobID hholder := by
    obtain ⟨t, ht, j, hsubmits, hkey⟩ := Memory.holder_of_run hrun hholder
    exact ⟨t, ht, j, hsubmits, ofTick_of_key hkey⟩
  refused now newID ce d k jobID hreply := by
    obtain ⟨t, ht, j, hsubmits, hkey⟩ := Memory.original_of_run hrun rfl hreply
    exact ⟨t, ht, j, hsubmits, ofTick_of_key hkey⟩
  kept now newID ce d d' hother := by
    let t : Turn Memory.Broker Memory.Call := ⟨b, ⟨now, .enqueue newID (some (tickJob ce d))⟩⟩
    have hafter := Memory.lookup_unique_after (cronUniqueKey_ne_empty d'.id d'.fireAt) t
    rcases htaken : Memory.taken (cronUniqueKey d'.id d'.fireAt) t with - | j'
    · rw [htaken] at hafter
      exact hafter
    · obtain ⟨j, ⟨_, _, hop, -⟩, hkey⟩ := Memory.submits_of_taken htaken
      cases hop
      exact absurd (cronUniqueKey_eq_iff.1 hkey) hother

/-- **Cron tick keys never collide.** For IDs that are any byte strings and fire times whose
milliseconds fit in an `int64`, two keys are equal exactly if the IDs and the milliseconds are; on
texts this is `cronUniqueKey`. Ticks that were read back from the cron set of Redis have the same
key only if they are the same. And in every run of either broker, whoever makes the calls, the
unique entry of a tick is never that of another one. -/
theorem tick_keys_never_collide :
    (∀ (id id' : Bulk) (t t' : Time), Representable t → Representable t' →
      (cronUniqueKeyBytes id t = cronUniqueKeyBytes id' t' ↔
        id = id' ∧ Redis.unixMilli t = Redis.unixMilli t')) ∧
    (∀ (id : String) (t : Time), Representable t →
      cronUniqueKeyBytes (ofString id) t = ofString (cronUniqueKey id t)) ∧
    (∀ (s s' : Redis.Store) (now now' limit limit' : ℤ) (d d' : DueCronEntry),
      d ∈ Redis.dueCron s now limit → d' ∈ Redis.dueCron s' now' limit' →
      (cronUniqueKey d.id d.fireAt = cronUniqueKey d'.id d'.fireAt ↔ d = d')) ∧
    (∀ cfg h s, (Redis.machine cfg).Run (fun _ _ _ ↦ True) h s → RedisApart cfg h s) ∧
    ∀ h b, Memory.machine.Run (fun _ _ _ ↦ True) h b → MemoryApart h b :=
  ⟨fun _ _ _ _ ht ht' ↦ cronUniqueKeyBytes_inj ht ht',
    fun id _ ht ↦ (ofString_cronUniqueKey id ht).symm,
    fun _ _ _ _ _ _ _ _ hd hd' ↦ cronUniqueKey_dueCron hd hd',
    fun _ _ _ hrun ↦ redisApart hrun, fun _ _ hrun ↦ memoryApart hrun⟩

/-- The entries `a` and `a:1` fire at -2 and 2 milliseconds, and `a:1` is fired again: it is a
duplicate of its own job. -/
theorem tick_keys_never_collide_spliced :
    Representable (-2 * millisecond) ∧
    cronUniqueKeyBytes (ofString "a:1") (2 * millisecond) ≠
      cronUniqueKeyBytes (ofString "a") (-2 * millisecond) ∧
    ∃ ce h s, (Redis.machine .default).Run (fun _ _ _ ↦ True) h s ∧
      (Redis.exec .default s
        ⟨3, .enqueue "y" 0 (some (tickJob ce ⟨"a:1", 2 * millisecond⟩))⟩).1 =
          .failed (.duplicate "cron:a:1:2" "x") ∧
      ∃ t ∈ h, ∃ j, Redis.Submits .default t j "x" ∧ OfTick ⟨"a:1", 2 * millisecond⟩ j := by
  have hlow : Representable (-2 * millisecond) := ⟨by decide, by decide⟩
  have hhigh : Representable (2 * millisecond) := ⟨by decide, by decide⟩
  obtain ⟨hkeys, -, -, hredis, -⟩ := tick_keys_never_collide
  refine ⟨hlow, fun heq ↦ ?_, ?_⟩
  · exact absurd ((hkeys _ _ _ _ hhigh hlow).1 heq).2 (by decide)
  · let ce : CompiledEntry := ⟨"q", "t", [], 1, fun t ↦ t + hour, by decide, by decide⟩
    let c₁ : Redis.Call := ⟨1, .enqueue "w" 0 (some (tickJob ce ⟨"a", -2 * millisecond⟩))⟩
    let c₂ : Redis.Call := ⟨2, .enqueue "x" 0 (some (tickJob ce ⟨"a:1", 2 * millisecond⟩))⟩
    let s₁ := (Redis.exec .default .empty c₁).2
    let s₂ := (Redis.exec .default s₁ c₂).2
    have hrun : (Redis.machine .default).Run (fun _ _ _ ↦ True) [⟨s₁, c₂⟩, ⟨.empty, c₁⟩] s₂ :=
      .step c₂ (.step c₁ .start trivial) trivial
    have hrefused : (Redis.exec .default s₂
        ⟨3, .enqueue "y" 0 (some (tickJob ce ⟨"a:1", 2 * millisecond⟩))⟩).1 =
          .failed (.duplicate "cron:a:1:2" "x") := rfl
    exact ⟨ce, _, s₂, hrun, hrefused, (hredis _ _ _ hrun).refused _ _ _ _ _ _ _ hrefused⟩

end TaskQueue.Scheduler
