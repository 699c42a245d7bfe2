import TaskQueue.Conformance.Corresponding
import TaskQueue.Conformance.Reference
import TaskQueue.Data.Batch

/-!
# Which jobs a `Promote` takes

Both brokers move due jobs from two wait sets onto their ready lists, no more than `limit` of them.
The in-memory broker merges the two sets and takes the jobs that are due first. `promote.lua`
**drains the delayed set first** and gives the retry set what is left of the limit. So the two agree
as long as only one set has due jobs, or all of them fit and no queue has jobs in both; otherwise
Redis may pass over a retrying job that has been due for longer, again on every call while enough
delayed jobs keep coming, or put two jobs of one queue on its ready list the other way round.

`promotes_alike_iff` says exactly when the two agree. What a call does to the ready lists and to the
wait sets is computed for each loop (`Promoted` in memory, `promoteLoop_spec` in Redis); the rest is
about lists (`TaskQueue.Data.Batch`).
-/

namespace TaskQueue

/-! ### The loop of `promote.lua` -/

namespace Redis.Script

variable {s : Store} {id : String} {e : Entry}

theorem queueOf_promoteJob (set : WaitSet) (he : s.job id = some e) :
    (promoteJob (zremWait s set id) id e.hash).queueOf = s.queueOf := by
  funext x
  simp only [Store.queueOf, promoteJob, Store.rpush, Store.hset, zremWait_job]
  by_cases hx : x = id
  · subst hx
    rw [Function.update_self, he]
    rfl
  · rw [Function.update_of_ne hx]

theorem ready_promoteJob (set : WaitSet) (he : s.job id = some e) (q : String) :
    (promoteJob (zremWait s set id) id e.hash).ready q =
      s.ready q ++ [id].filter (s.queueOf · = some q) := by
  have hq : s.queueOf id = some e.hash.queue := by rw [Store.queueOf, he]; rfl
  simp only [promoteJob, Store.rpush, Store.hset, zremWait_ready]
  rw [Batch.update_concat s.ready hq]

/-- The same for the inner loop of `promote.lua`. -/
theorem promoteLoop_spec (set : WaitSet) (ids : List String) :
    ∀ (k : ℕ) (s : Store), ids.Nodup → (∀ x ∈ ids, (s.queueOf x).isSome) →
    (∀ x ∈ ids, ((waitSet s set).lookup x).isSome) →
    (promoteLoop set ids k s).1 = k + ids.length ∧
    (∀ q, (promoteLoop set ids k s).2.ready q = s.ready q ++ ids.filter (s.queueOf · = some q)) ∧
    (promoteLoop set ids k s).2.queueOf = s.queueOf ∧
    ∀ set' x, (waitSet (promoteLoop set ids k s).2 set').lookup x =
      if x ∈ ids ∧ set' = set then none else (waitSet s set').lookup x := by
  induction ids with
  | nil =>
    intro k s _ _ _
    exact ⟨rfl, fun q ↦ by simp [promoteLoop], rfl, fun set' x ↦ by simp [promoteLoop]⟩
  | cons id ids ih =>
    intro k s hnodup hjobs hin
    rw [List.nodup_cons] at hnodup
    have hsome := hjobs id List.mem_cons_self
    rcases he : s.job id with - | e
    · rw [Store.queueOf, he] at hsome
      cases hsome
    · have hqueue := queueOf_promoteJob set he
      rw [promoteLoop, if_pos (hin id List.mem_cons_self)]
      simp only [zremWait_job, he]
      obtain ⟨hcount, hready, hqueue', hwait⟩ := ih (k + 1)
        (promoteJob (zremWait s set id) id e.hash) hnodup.2
        (fun x hx ↦ by rw [hqueue]; exact hjobs x (List.mem_cons_of_mem id hx)) fun x hx ↦ by
          rw [waitSet_promoteJob, if_neg (show ¬ (x = id ∧ set = set) from
            fun h ↦ hnodup.1 (h.1 ▸ hx))]
          exact hin x (List.mem_cons_of_mem id hx)
      refine ⟨?_, fun q ↦ ?_, hqueue'.trans hqueue, fun set' x ↦ ?_⟩
      · rw [hcount, List.length_cons]
        omega
      · rw [hready, hqueue, ready_promoteJob set he, List.append_assoc, ← List.filter_append]
        rfl
      · rw [hwait, waitSet_promoteJob]
        by_cases hx : x = id
        · subst hx
          by_cases hset : set' = set
          · simp [hset]
          · simp [hset]
        · simp only [hx, false_and, if_false, List.mem_cons, false_or]

/-- One round of `promote.lua`: it takes as many due members of the set as the limit allows. -/
theorem promoteSet_spec {now limit : ℤ} (set : WaitSet) (k : ℕ) {ids : List String}
    (hids : ids = (Table.keysOf ((waitSet s set).due (fun _ ↦ true) now)).take (limit - k).toNat)
    (hjobs : ∀ x, ((waitSet s set).lookup x).isSome → (s.queueOf x).isSome) :
    (promoteSet now limit set (k, s)).1 = k + ids.length ∧
    (∀ q, (promoteSet now limit set (k, s)).2.ready q =
      s.ready q ++ ids.filter (s.queueOf · = some q)) ∧
    (promoteSet now limit set (k, s)).2.queueOf = s.queueOf ∧
    ∀ set' x, (waitSet (promoteSet now limit set (k, s)).2 set').lookup x =
      if x ∈ ids ∧ set' = set then none else (waitSet s set').lookup x := by
  have hmember : ∀ x ∈ ids, ((waitSet s set).lookup x).isSome := by
    intro x hx
    rw [hids] at hx
    obtain ⟨t, ht, -⟩ := Table.mem_keysOf_due.1 (List.mem_of_mem_take hx)
    rw [ht]
    rfl
  have hnodup : ids.Nodup := by
    rw [hids]
    exact (Table.keysOf_due_nodup _ _ now).sublist (List.take_sublist _ _)
  have hround : promoteSet now limit set (k, s) = promoteLoop set ids k s := by
    rw [promoteSet, hids]
    dsimp only
    split_ifs with hlt
    · rfl
    · rw [Int.toNat_of_nonpos (by omega), List.take_zero]
      rfl
  rw [hround]
  exact promoteLoop_spec set ids k s hnodup (fun x hx ↦ hjobs x (hmember x hx)) hmember

/-- **What `promote.lua` does**: it takes the due members of the delayed set, and as many of the
retry set as the limit then allows. -/
theorem promote_spec {now limit : ℤ} (hlim : 0 < limit) {d r : List String}
    (hd : d = Table.keysOf (s.delayed.due (fun _ ↦ true) now))
    (hr : r = Table.keysOf (s.retry.due (fun _ ↦ true) now))
    (hjobs : ∀ set x, ((waitSet s set).lookup x).isSome → (s.queueOf x).isSome) :
    (∀ q, (promote s now limit).2.ready q = s.ready q ++
      (d.take limit.toNat ++ r.take (limit.toNat - d.length)).filter (s.queueOf · = some q)) ∧
    (∀ x, (promote s now limit).2.delayed.lookup x =
      if x ∈ d.take limit.toNat then none else s.delayed.lookup x) ∧
    ∀ x, (promote s now limit).2.retry.lookup x =
      if x ∈ r.take (limit.toNat - d.length) then none else s.retry.lookup x := by
  obtain ⟨hcount₁, hready₁, hqueue₁, hwait₁⟩ :=
    promoteSet_spec .delayed 0
      (show d.take limit.toNat =
          (Table.keysOf (s.delayed.due (fun _ ↦ true) now)).take (limit - (0 : ℕ)).toNat by
        rw [hd, Nat.cast_zero, sub_zero]) (hjobs .delayed)
  rw [promote]
  generalize promoteSet now limit .delayed (0, s) = r₁ at hcount₁ hready₁ hqueue₁ hwait₁ ⊢
  obtain ⟨k, s₁⟩ := r₁
  dsimp only at hcount₁ hready₁ hqueue₁ hwait₁
  -- the retry set is as it was, and so is what is left of the limit
  have hretry : ∀ x, s₁.retry.lookup x = s.retry.lookup x := fun x ↦
    (hwait₁ .retry x).trans (if_neg fun h ↦ by cases h.2)
  have hleft : (limit - k).toNat = limit.toNat - d.length := by
    rw [hcount₁, List.length_take]
    omega
  obtain ⟨-, hready₂, -, hwait₂⟩ := promoteSet_spec (s := s₁) .retry k
    (show r.take (limit.toNat - d.length) =
        (Table.keysOf (s₁.retry.due (fun _ ↦ true) now)).take (limit - k).toNat by
      rw [Table.due_congr hretry, ← hr, hleft])
    fun x hx ↦ by
      rw [hqueue₁]
      exact hjobs .retry x (hretry x ▸ hx)
  refine ⟨fun q ↦ ?_, fun x ↦ ?_, fun x ↦ ?_⟩
  · rw [hready₂, hready₁, hqueue₁, List.filter_append, List.append_assoc]
  · refine (hwait₂ .delayed x).trans ?_
    rw [if_neg fun h ↦ by cases h.2]
    refine (hwait₁ .delayed x).trans ?_
    simp only [and_true]
    rfl
  · refine (hwait₂ .retry x).trans ?_
    simp only [and_true]
    exact if_congr Iff.rfl rfl (hretry x)

end Redis.Script

/-! ### Agreement -/

namespace Conformance

open Memory (Broker)
open Redis (Store)

/-- The job has left the wait sets of the in-memory broker. -/
def MovedInMemory (b b' : Broker) (id : String) : Prop :=
  ∃ set, ((b.waitSet set).lookup id).isSome ∧ (b'.waitSet set).lookup id = none

/-- The job has left the wait sets of Redis. -/
def MovedInRedis (s s' : Store) (id : String) : Prop :=
  ∃ set, ((Redis.Script.waitSet s set).lookup id).isSome ∧
    (Redis.Script.waitSet s' set).lookup id = none

/-- The due jobs that come first by due time and ID in both sets together, no more than `limit`. -/
def firstDue (b : Broker) (now : Time) (limit : ℤ) : List String :=
  ((b.dueJobs now).take limit.toNat).map fun c ↦ (ofLex c.1).2

/-- **What both brokers are to do with a `Promote`** at the time `now`, in nanoseconds since the
Unix epoch: move the jobs that are due first, and leave the same ready lists. -/
structure PromoteAlike (b : Broker) (s : Store) (now : ℕ) (limit : ℤ) : Prop where
  memory : ∀ id, MovedInMemory b (b.promote now limit).2 id ↔ id ∈ firstDue b now limit
  redis : ∀ id, MovedInRedis s (Redis.promote s (now / millisecond) limit).2 id ↔
    id ∈ firstDue b now limit
  ready : (b.promote now limit).2.pending = (Redis.promote s (now / millisecond) limit).2.ready

/-- Draining the delayed set first does no harm: a retrying job that is due before one of the
delayed jobs taken is of another queue, and is taken as well because it fits in with all of them. -/
def DrainsInOrder (b : Broker) (now : Time) (limit : ℤ) : Prop :=
  ∀ x ∈ (b.scheduled.due (fun _ ↦ true) now).take limit.toNat,
    ∀ y ∈ b.retry.due (fun _ ↦ true) now, y < x →
      y ∈ (b.retry.due (fun _ ↦ true) now).take
        (limit.toNat - (b.scheduled.due (fun _ ↦ true) now).length) ∧
      b.queueOf (ofLex y).2 ≠ b.queueOf (ofLex x).2

variable {b : Broker} {s : Store} {now : ℕ} {limit : ℤ} {id : String}

/-- What is waiting is a job of some queue. -/
theorem SameWaits.isSome_queueOf (C : SameWaits b s) (set : Broker.WaitSet) {t : Time}
    (ht : (b.waitSet set).lookup id = some t) : (b.queueOf id).isSome := by
  rcases set with - | -
  · obtain ⟨j, hj, -⟩ := C.scheduled_state id t ht
    rw [Broker.queueOf, hj]
    rfl
  · obtain ⟨j, hj, -⟩ := C.retry_state id t ht
    rw [Broker.queueOf, hj]
    rfl

theorem SameWaits.other_waitSet (C : SameWaits b s) {set set' : Broker.WaitSet} {t : Time}
    (ht : (b.waitSet set).lookup id = some t) (hset : set' ≠ set) :
    (b.waitSet set').lookup id = none := by
  refine Option.eq_none_iff_forall_ne_some.2 fun t' ht' ↦ ?_
  rcases set with - | - <;> rcases set' with - | -
  · exact hset rfl
  · exact C.not_both ht ht'
  · exact C.not_both ht' ht
  · exact hset rfl

theorem SameWaits.dueJobs_nodup (C : SameWaits b s) (now : Time) :
    ((b.dueJobs now).map fun c ↦ (ofLex c.1).2).Nodup :=
  Memory.Broker.dueJobs_nodup (fun _ _ _ ht ht' ↦ C.not_both ht ht') now

/-- The in-memory broker moves the jobs that are due first. -/
theorem promote_inMemory (C : SameWaits b s) (now : ℕ) (hlim : 0 < limit) :
    (∀ id, MovedInMemory b (b.promote now limit).2 id ↔ id ∈ firstDue b now limit) ∧
    ∀ q, (b.promote now limit).2.pending q =
      b.pending q ++ (firstDue b now limit).filter (b.queueOf · = some q) := by
  obtain ⟨-, hprom⟩ := Broker.promoted_promoteLoop limit (b.dueJobs now) 0 b (C.dueJobs_nodup now)
    fun c hc ↦ by
      have hin := (Memory.Broker.mem_dueJobs.1 hc).1
      obtain ⟨q, hq⟩ := Option.isSome_iff_exists.1 (C.isSome_queueOf c.2 hin)
      obtain ⟨j, hj, -⟩ := Option.map_eq_some_iff.1 hq
      exact ⟨⟨j, hj⟩, fun set hset ↦ C.other_waitSet hin hset⟩
  rw [Nat.cast_zero, sub_zero] at hprom
  rw [Broker.promote, if_neg (not_le.2 hlim), if_neg (by rw [C.opened]; decide)]
  refine ⟨fun id ↦ ⟨?_, fun hid ↦ ?_⟩, hprom.pending⟩
  · rintro ⟨set, hin, hout⟩
    rw [hprom.waitSet] at hout
    split_ifs at hout with hmem
    · exact hmem
    · rw [hout] at hin
      cases hin
  · obtain ⟨c, hc, rfl⟩ := List.mem_map.1 hid
    refine ⟨c.2, ?_, ?_⟩
    · rw [(Memory.Broker.mem_dueJobs.1 (List.mem_of_mem_take hc)).1]
      rfl
    · rw [hprom.waitSet, if_pos (List.mem_map.2 ⟨c, hc, rfl⟩)]

theorem SameWaits.wait (C : SameWaits b s) (set : Redis.Script.WaitSet) :
    Mirrors (b.waitSet (waitSet set)) (Redis.Script.waitSet s set) := by
  rcases set with - | -
  · exact C.scheduled
  · exact C.retry

/-- Redis drains the delayed set before the retry set. -/
theorem promote_inRedis (C : SameWaits b s) (now : ℕ) (hlim : 0 < limit)
    (hreads : Redis.Script.reads limit = true) {ids : List String}
    (hids : ids = Table.keysOf (Batch.drain limit.toNat (b.scheduled.due (fun _ ↦ true) now)
      (b.retry.due (fun _ ↦ true) now))) :
    (∀ id, MovedInRedis s (Redis.promote s (now / millisecond) limit).2 id ↔ id ∈ ids) ∧
    ∀ q, (Redis.promote s (now / millisecond) limit).2.ready q =
      b.pending q ++ ids.filter (b.queueOf · = some q) := by
  have hnow : (0 : Time) ≤ now := Int.natCast_nonneg now
  obtain ⟨hready, hdelayed, hretry⟩ := Redis.Script.promote_spec hlim (C.scheduled.due_at hnow)
    (C.retry.due_at hnow) fun set x hx ↦ by
      obtain ⟨t, ht⟩ := Option.isSome_iff_exists.1 hx
      rw [C.queueOf_eq]
      exact C.isSome_queueOf (waitSet set) (((C.wait set x).1).trans (by rw [ht]; rfl))
  have hlen : (Table.keysOf (b.scheduled.due (fun _ ↦ true) now)).length =
      (b.scheduled.due (fun _ ↦ true) now).length := List.length_map _
  have happend : ids = (Table.keysOf (b.scheduled.due (fun _ ↦ true) now)).take limit.toNat ++
      (Table.keysOf (b.retry.due (fun _ ↦ true) now)).take
        (limit.toNat - (Table.keysOf (b.scheduled.due (fun _ ↦ true) now)).length) := by
    rw [hids, hlen, Table.keysOf, Batch.drain, List.map_append, List.map_take, List.map_take]
    rfl
  rw [Redis.promote, if_neg (not_le.2 hlim), if_neg (by simp [hreads]), Prod.map_snd, id]
  refine ⟨fun id ↦ ?_, fun q ↦ ?_⟩
  · have hmember : ∀ {z : Redis.ZSet} {m : Table String Time} {k : ℕ}, Mirrors m z →
        id ∈ (Table.keysOf (m.due (fun _ ↦ true) now)).take k → (z.lookup id).isSome := by
      intro z m k hm hid
      obtain ⟨t, ht, -⟩ := Table.mem_keysOf_due.1 (List.mem_of_mem_take hid)
      rw [(hm id).1] at ht
      obtain ⟨t₀, ht₀, -⟩ := Option.map_eq_some_iff.1 ht
      rw [ht₀]
      rfl
    have hsets : MovedInRedis s (Redis.Script.promote s (now / millisecond) limit).2 id ↔
        ((s.delayed.lookup id).isSome ∧
          (Redis.Script.promote s (now / millisecond) limit).2.delayed.lookup id = none) ∨
        ((s.retry.lookup id).isSome ∧
          (Redis.Script.promote s (now / millisecond) limit).2.retry.lookup id = none) := by
      constructor
      · rintro ⟨_ | _, hmoved⟩
        · exact .inl hmoved
        · exact .inr hmoved
      · rintro (hmoved | hmoved)
        · exact ⟨.delayed, hmoved⟩
        · exact ⟨.retry, hmoved⟩
    rw [hsets, Table.left_iff (hdelayed id) (hmember C.scheduled),
      Table.left_iff (hretry id) (hmember C.retry), happend, List.mem_append]
  · rw [hready, ← C.ready, happend]
    simp only [C.queueOf_eq]

/-! ### Against one batch of both sets -/

/-- The due jobs of both sets, soonest first. -/
def merged (b : Broker) (now : Time) : List (Time ×ₗ String) := (b.dueJobs now).map Prod.fst

theorem firstDue_eq (b : Broker) (now : Time) (limit : ℤ) :
    firstDue b now limit = Table.keysOf ((merged b now).take limit.toNat) := by
  rw [firstDue, merged, ← List.map_take, Table.keysOf, List.map_map]
  rfl

theorem mem_merged {now : Time} {p : Time ×ₗ String} : p ∈ merged b now ↔
    p ∈ b.scheduled.due (fun _ ↦ true) now ∨ p ∈ b.retry.due (fun _ ↦ true) now := by
  rw [merged, List.mem_map, Table.mem_due, Table.mem_due]
  simp only [and_true]
  constructor
  · rintro ⟨⟨p, _ | _⟩, hc, rfl⟩
    · exact .inl (Broker.mem_dueJobs.1 hc)
    · exact .inr (Broker.mem_dueJobs.1 hc)
  · rintro (hp | hp)
    · exact ⟨(p, .scheduled), Broker.mem_dueJobs.2 hp, rfl⟩
    · exact ⟨(p, .retry), Broker.mem_dueJobs.2 hp, rfl⟩

section

variable (C : SameWaits b s)

include C

theorem SameWaits.due_disjoint {now : Time} {p : Time ×ₗ String}
    (hd : p ∈ b.scheduled.due (fun _ ↦ true) now) : p ∉ b.retry.due (fun _ ↦ true) now := fun hr ↦
  C.not_both (Table.mem_due.1 hd).1 (Table.mem_due.1 hr).1

theorem SameWaits.merged_sortedLT (now : Time) : (merged b now).SortedLT :=
  Memory.dueJobs_sortedLT (C.dueJobs_nodup now)

/-- A due job is known by its ID. -/
theorem SameWaits.merged_inj {now : Time} {p p' : Time ×ₗ String} (hp : p ∈ merged b now)
    (hp' : p' ∈ merged b now) (hid : (ofLex p).2 = (ofLex p').2) : p = p' := by
  have heq : ∀ {m : Table String Time}, m.lookup (ofLex p).2 = some (ofLex p).1 →
      m.lookup (ofLex p').2 = some (ofLex p').1 → p = p' := by
    intro m ht ht'
    rw [hid, ht'] at ht
    exact ofLex.injective (Prod.ext (Option.some.inj ht).symm hid)
  rcases mem_merged.1 hp with h | h <;> rcases mem_merged.1 hp' with h' | h'
  · exact heq (Table.mem_due.1 h).1 (Table.mem_due.1 h').1
  · exact (C.not_both (Table.mem_due.1 h).1 (hid ▸ (Table.mem_due.1 h').1)).elim
  · exact (C.not_both (Table.mem_due.1 h').1 (hid ▸ (Table.mem_due.1 h).1)).elim
  · exact heq (Table.mem_due.1 h).1 (Table.mem_due.1 h').1

theorem SameWaits.merged_queue {now : Time} {p : Time ×ₗ String} (hp : p ∈ merged b now) :
    (b.queueOf (ofLex p).2).isSome := by
  rcases mem_merged.1 hp with h | h
  · exact C.isSome_queueOf .scheduled (Table.mem_due.1 h).1
  · exact C.isSome_queueOf .retry (Table.mem_due.1 h).1

/-- Batches of due jobs have the same members if they have the same IDs. -/
theorem SameWaits.mem_keysOf_iff {now : Time} {l l' : List (Time ×ₗ String)} (hl : l ⊆ merged b now)
    (hl' : l' ⊆ merged b now) :
    (∀ id, id ∈ Table.keysOf l ↔ id ∈ Table.keysOf l') ↔ ∀ p, p ∈ l ↔ p ∈ l' := by
  have hkey : ∀ {l₀ : List (Time ×ₗ String)}, l₀ ⊆ merged b now → ∀ p ∈ merged b now,
      ((ofLex p).2 ∈ Table.keysOf l₀ ↔ p ∈ l₀) := by
    intro l₀ hl₀ p hp
    refine ⟨fun hin ↦ ?_, List.mem_map_of_mem⟩
    obtain ⟨p', hp', hid⟩ := List.mem_map.1 hin
    rwa [← C.merged_inj (hl₀ hp') hp hid]
  constructor
  · intro h p
    by_cases hp : p ∈ merged b now
    · rw [← hkey hl p hp, ← hkey hl' p hp, h]
    · exact iff_of_false (fun hin ↦ hp (hl hin)) fun hin ↦ hp (hl' hin)
  · intro h id
    simp only [Table.keysOf, List.mem_map, h]

/-- And they add the same to every ready list if they have the same jobs of each queue in the same
order. -/
theorem SameWaits.filter_keysOf_iff {now : Time} {l l' : List (Time ×ₗ String)}
    (hl : l ⊆ merged b now) (hl' : l' ⊆ merged b now) :
    (∀ q, (Table.keysOf l).filter (b.queueOf · = some q) =
        (Table.keysOf l').filter (b.queueOf · = some q)) ↔
      ∀ c, l.filter (fun p ↦ b.queueOf (ofLex p).2 = c) =
        l'.filter fun p ↦ b.queueOf (ofLex p).2 = c := by
  have hmap : ∀ (l₀ : List (Time ×ₗ String)) (q : String),
      (Table.keysOf l₀).filter (b.queueOf · = some q) =
        Table.keysOf (l₀.filter fun p ↦ b.queueOf (ofLex p).2 = some q) := fun l₀ q ↦
    List.filter_map
  have hnone : ∀ {l₀ : List (Time ×ₗ String)}, l₀ ⊆ merged b now →
      l₀.filter (fun p ↦ b.queueOf (ofLex p).2 = none) = [] := by
    intro l₀ hl₀
    refine List.filter_eq_nil_iff.2 fun p hp hq ↦ ?_
    have hsome := C.merged_queue (hl₀ hp)
    rw [of_decide_eq_true hq] at hsome
    cases hsome
  constructor
  · rintro h (_ | q)
    · rw [hnone hl, hnone hl']
    · have hq := h q
      rw [hmap, hmap] at hq
      refine Table.keysOf_inj (fun p hp p' hp' hid ↦ ?_) hq
      exact C.merged_inj (hl (List.mem_filter.1 hp).1) (hl' (List.mem_filter.1 hp').1) hid
  · intro h q
    rw [hmap, hmap, h]

end

/-- **When the two brokers promote alike**: at corresponding states, and with a limit that a double
holds, they do exactly if draining the delayed set first does no harm. -/
theorem promotes_alike_iff (C : SameWaits b s) (now : ℕ) (hlim : 1 ≤ limit)
    (hmax : limit ≤ 2 ^ 53) :
    PromoteAlike b s now limit ↔ DrainsInOrder b now limit := by
  obtain ⟨hmemory, hpending⟩ := promote_inMemory C now hlim
  obtain ⟨hredis, hready⟩ :=
    promote_inRedis C now hlim (Redis.Script.reads_of_le hmax) rfl
  have hd := Table.due_sortedLT b.scheduled (fun _ ↦ true) now
  have hr := Table.due_sortedLT b.retry (fun _ ↦ true) now
  have hm := C.merged_sortedLT now
  have hdisj : ∀ x ∈ b.scheduled.due (fun _ ↦ true) (now : Time),
      x ∉ b.retry.due (fun _ ↦ true) now := fun x hx ↦ C.due_disjoint hx
  have hdrain : Batch.drain limit.toNat (b.scheduled.due (fun _ ↦ true) (now : Time))
      (b.retry.due (fun _ ↦ true) now) ⊆ merged b now := fun p hp ↦ by
    rcases List.mem_append.1 hp with hp | hp
    · exact mem_merged.2 (.inl (List.mem_of_mem_take hp))
    · exact mem_merged.2 (.inr (List.mem_of_mem_take hp))
  have htake : (merged b now).take limit.toNat ⊆ merged b now := List.take_subset _ _
  have hset := Batch.mem_drain_iff (n := limit.toNat) hd hr hm (fun p ↦ mem_merged) hdisj
  have hsame := C.mem_keysOf_iff hdrain htake
  have horder := C.filter_keysOf_iff hdrain htake
  rw [firstDue_eq] at hpending
  constructor
  · intro halike x hx y hy hlt
    have hmem : ∀ p, p ∈ Batch.drain limit.toNat _ _ ↔ p ∈ (merged b now).take limit.toNat :=
      hsame.1 fun id ↦ by rw [← hredis, halike.redis, firstDue_eq]
    have hin := hset.1 hmem x hx y hy hlt
    have hlists : ∀ q, _ = _ := fun q ↦ List.append_cancel_left <|
      (hready q).symm.trans ((congrFun halike.ready q).symm.trans (hpending q))
    exact ⟨hin, (Batch.filter_drain_iff hd hr hm hdisj _ hmem).1 (horder.1 hlists) x hx y hin hlt⟩
  · intro hin
    have hmem := hset.2 fun x hx y hy hlt ↦ (hin x hx y hy hlt).1
    have hcls := (Batch.filter_drain_iff hd hr hm hdisj (fun p ↦ b.queueOf (ofLex p).2) hmem).2
      fun x hx y hy hlt ↦ (hin x hx y (List.mem_of_mem_take hy) hlt).2
    refine ⟨hmemory, fun id ↦ ?_, funext fun q ↦ ?_⟩
    · rw [hredis, firstDue_eq]
      exact hsame.2 hmem id
    · rw [hpending, hready, horder.2 hcls]

/-! ### Mixed backlogs -/

/-- What a producer and a worker leave behind: a job that failed is to be retried at 2 ms, and a job
of another queue is to run at 3 ms. -/
def mixed : Pair :=
  [(⟨1, .enqueue "a" 0 (some (Job.plain "q" "t" 3))⟩ : Request),
    ⟨1, .dequeue ⟨"w", ["q"], millisecond⟩⟩,
    ⟨1, .nack "w" "a" (2 * millisecond) "failed"⟩,
    ⟨1, .enqueue "b" 0 (some { Job.plain "r" "t" 3 with runAt := 3 * millisecond })⟩].foldl
    (next keepNone) .new

theorem simulates_mixed : Simulates mixed := by
  simp only [mixed, List.foldl_cons, List.foldl_nil]
  refine .next (.next (.next (.next simulates_new ?_) ?_) ?_) ?_
  · exact ⟨by decide, by decide,
      show _ ∧ _ from ⟨fair_plain (by decide) "q" (.inl rfl), by decide⟩⟩
  · exact ⟨by decide, by decide, show Whole _ from ⟨1, rfl⟩⟩
  · exact ⟨by decide, by decide, show Instant _ from .inr ⟨by decide, ⟨2, rfl⟩⟩⟩
  · exact ⟨by decide, by decide,
      show _ ∧ _ from ⟨fair_plain (by decide) "r" (.inr ⟨by decide, ⟨3, rfl⟩⟩), by decide⟩⟩

/-- At 4 ms and with a limit of 1 the in-memory broker promotes the retry that is due first, and
Redis the delayed job. -/
theorem retry_passed_over : ∃ b s, SameWaits b s ∧ ¬ PromoteAlike b s (4 * 10 ^ 6) 1 := by
  refine ⟨mixed.memory, mixed.redis, simulates_mixed.lockstep.sameWaits, fun halike ↦ ?_⟩
  obtain ⟨set, hin, hout⟩ := (halike.redis "a").2 (by decide)
  rcases set with - | -
  · revert hin
    decide +kernel
  · revert hout
    decide +kernel

/-- With a limit of 2 both promote both. -/
theorem promotes_alike_iff_mixed : SameWaits mixed.memory mixed.redis ∧
    PromoteAlike mixed.memory mixed.redis (4 * 10 ^ 6) 2 :=
  ⟨simulates_mixed.lockstep.sameWaits,
    (promotes_alike_iff simulates_mixed.lockstep.sameWaits _ (by decide) (by decide)).2 (by
      unfold DrainsInOrder
      decide)⟩

end Conformance

end TaskQueue
