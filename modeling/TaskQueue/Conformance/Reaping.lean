import TaskQueue.Conformance.Corresponding
import TaskQueue.Conformance.Reference
import TaskQueue.Data.Batch

/-!
# Which jobs a `Reap` takes

Both brokers end expired leases, soonest first: a job with attempts left goes back to the head of
its ready list, and one without goes to the dead-letter set. They differ in **what the limit
bounds**. The in-memory broker collects the expired leases on all listed queues and acts on the
first `limit` of them. Redis runs its script once for each entry of the queue list, each time with
the whole limit, so that a deep queue cannot starve the others: it acts on up to `limit` jobs of a
queue, as often as the queue is listed.

What a sweep does to a broker is the same in both, once it is known which jobs it acts on: `Swept`
says it for a **view** that either broker has. The loops sweep (`swept_of_recovered`,
`swept_reapLoop_redis`), the Go loop over the queues sweeps what its rounds do (`reap_inRedis`), and
`reaps_per_queue` compares the two.
-/

namespace TaskQueue.Conformance

open Memory (Broker)
open Redis (Store Entry)

/-! ### Sweeps -/

/-- What a `Reap` reads and writes, in either broker. -/
@[ext]
structure View where
  queueOf : String → Option String
  /-- The attempts of the job are used up. -/
  spent : String → Bool
  leased : String → Prop
  ready : String → List String
  dead : String → Prop

/-- **The jobs `ids` were swept**, one after the other: their leases are gone, those with attempts
left are at the heads of their ready lists, and the others are dead. -/
structure Swept (ids : List String) (v v' : View) : Prop where
  queueOf : v'.queueOf = v.queueOf
  spent : v'.spent = v.spent
  leased : ∀ x, v'.leased x ↔ v.leased x ∧ x ∉ ids
  ready : ∀ q, v'.ready q =
    (ids.filter fun x ↦ v.queueOf x = some q ∧ v.spent x = false).reverse ++ v.ready q
  dead : ∀ x, v'.dead x ↔ v.dead x ∨ x ∈ ids ∧ v.spent x = true

theorem Swept.nil (v : View) : Swept [] v v where
  queueOf := rfl
  spent := rfl
  leased x := by simp
  ready q := rfl
  dead x := by simp

theorem Swept.append {l l' : List String} {v v' v'' : View} (h : Swept l v v')
    (h' : Swept l' v' v'') : Swept (l ++ l') v v'' where
  queueOf := h'.queueOf.trans h.queueOf
  spent := h'.spent.trans h.spent
  leased x := by
    rw [h'.leased, h.leased, List.mem_append, not_or, and_assoc]
  ready q := by
    rw [h'.ready, h.ready, h.queueOf, h.spent, List.filter_append, List.reverse_append,
      List.append_assoc]
  dead x := by
    rw [h'.dead, h.dead, h.spent, List.mem_append, or_assoc, or_and_right]

/-- One job is swept: it is dead-lettered if its attempts are used up, or else requeued. -/
theorem Swept.one {v v' : View} {id q : String} (hq : v.queueOf id = some q)
    (hqueue : v'.queueOf = v.queueOf) (hspent : v'.spent = v.spent)
    (hleased : ∀ x, v'.leased x ↔ v.leased x ∧ x ≠ id)
    (hmoved : if v.spent id then v'.ready = v.ready ∧ ∀ x, v'.dead x ↔ v.dead x ∨ x = id
      else v'.ready = Function.update v.ready q (id :: v.ready q) ∧ ∀ x, v'.dead x ↔ v.dead x) :
    Swept [id] v v' := by
  rcases hex : v.spent id with - | - <;>
    simp only [hex, Bool.false_eq_true, if_true, if_false] at hmoved
  · refine ⟨hqueue, hspent, fun x ↦ by rw [hleased, List.mem_singleton], fun q' ↦ ?_, fun x ↦ ?_⟩
    · rw [hmoved.1, Batch.update_cons v.ready hq]
      simp [List.filter_cons, hex]
      split_ifs <;> rfl
    · rw [hmoved.2, List.mem_singleton, or_iff_left]
      rintro ⟨rfl, hx⟩
      rw [hex] at hx
      cases hx
  · refine ⟨hqueue, hspent, fun x ↦ by rw [hleased, List.mem_singleton], fun q' ↦ ?_, fun x ↦ ?_⟩
    · rw [hmoved.1, List.filter_cons_of_neg (by simp [hex])]
      rfl
    · rw [hmoved.2, List.mem_singleton]
      exact or_congr_right ⟨fun hx ↦ ⟨hx, hx ▸ hex⟩, And.left⟩

/-! ### The in-memory broker -/

/-- The in-memory broker, as a `Reap` sees it. -/
def memoryView (b : Broker) : View where
  queueOf := b.queueOf
  spent := b.spentOf
  leased id := (b.active.lookup id).isSome
  ready := b.pending
  dead id := id ∈ b.dead

section Memory

variable {b : Broker} {id : String} {j : Job}

theorem recoveredJob_queue (j : Job) : (Broker.recoveredJob j).queue = j.queue := by
  rw [Broker.recoveredJob]
  split_ifs <;> rfl

theorem recoveredJob_exhausted (j : Job) : (Broker.recoveredJob j).exhausted = j.exhausted := by
  rw [Broker.recoveredJob]
  split_ifs <;> rfl

/-- **What was reaped was swept.** -/
theorem swept_of_recovered {ids : List String} {b' : Broker} (h : Broker.Recovered ids b b') :
    Swept ids (memoryView b) (memoryView b') where
  queueOf := funext fun x ↦ by
    show (b'.jobs.lookup x).map Job.queue = (b.jobs.lookup x).map Job.queue
    rw [h.jobs x]
    split_ifs
    · rw [Option.map_map]
      exact congrArg (Option.map · _) (funext recoveredJob_queue)
    · rfl
  spent := funext fun x ↦ by
    show b'.spentOf x = b.spentOf x
    rw [Broker.spentOf, Broker.spentOf, h.jobs x]
    split_ifs
    · rw [Option.any_map]
      exact congrArg (Option.any · _) (funext recoveredJob_exhausted)
    · rfl
  leased x := by
    show (b'.active.lookup x).isSome ↔ (b.active.lookup x).isSome ∧ x ∉ ids
    rw [h.active x]
    split_ifs with hx <;> simp [hx]
  ready q := by
    refine (h.pending q).trans (congrArg (fun l ↦ List.reverse l ++ b.pending q) ?_)
    refine List.filter_congr fun x _ ↦ ?_
    rw [Bool.decide_and]
    show (decide (b.queueOf x = some q) && !b.spentOf x) = (_ && decide (b.spentOf x = false))
    rcases b.spentOf x with - | - <;> rfl
  dead x := by
    show x ∈ b'.dead ↔ x ∈ b.dead ∨ x ∈ ids ∧ b.spentOf x = true
    rw [h.dead, List.mem_append, List.mem_filter]

end Memory

/-! ### Redis -/

/-- Redis, as a `Reap` sees it. -/
def redisView (s : Store) : View where
  queueOf := s.queueOf
  spent id := (s.job id).any fun e ↦ Redis.spent e.hash.attempt e.hash.maxAttempts
  leased id := ∃ q, ((s.active q).lookup id).isSome
  ready := s.ready
  dead id := (s.dead.lookup id).isSome

/-- The active set of a queue has jobs of that queue. -/
def Owned (s : Store) : Prop :=
  ∀ q id, ((s.active q).lookup id).isSome → s.queueOf id = some q

/-- The expired leases on a queue, soonest first. -/
def expiredIn (s : Store) (now : ℤ) (q : String) : List String :=
  Table.keysOf ((s.active q).due (fun _ ↦ true) now)

section Redis

variable {s : Store} {now : ℤ} {q id : String} {e : Entry}

theorem job_recover (s : Store) (now : ℤ) (q id : String) (e : Entry) :
    ∃ e' : Entry, (Redis.Script.recover (s.zremActive q id) now q id e.hash).job =
        Function.update s.job id (some e') ∧ e'.hash.queue = e.hash.queue ∧
      e'.hash.attempt = e.hash.attempt ∧ e'.hash.maxAttempts = e.hash.maxAttempts := by
  rw [Redis.Script.recover]
  dsimp only
  split_ifs
  · exact ⟨_, rfl, rfl, rfl, rfl⟩
  · exact ⟨_, rfl, rfl, rfl, rfl⟩

theorem active_recover (s : Store) (now : ℤ) (q id : String) (h : Redis.Hash) (q' x : String) :
    ((Redis.Script.recover (s.zremActive q id) now q id h).active q').lookup x =
      if q' = q ∧ x = id then none else (s.active q').lookup x := by
  have hactive : (Redis.Script.recover (s.zremActive q id) now q id h).active =
      Function.update s.active q ((s.active q).erase id) := by
    rw [Redis.Script.recover]
    dsimp only
    split_ifs <;> rfl
  rw [hactive, Table.lookup_update]
  by_cases hq : q = q'
  · subst hq
    simp only [if_true, true_and, Table.lookup_erase_eq]
  · rw [if_neg hq, if_neg fun h ↦ hq h.1.symm]

/-- A job is swept back in the same queue and with the same attempts. -/
theorem redisView_recover (he : s.job id = some e) :
    (redisView (Redis.Script.recover (s.zremActive q id) now q id e.hash)).queueOf =
      (redisView s).queueOf ∧
    (redisView (Redis.Script.recover (s.zremActive q id) now q id e.hash)).spent =
      (redisView s).spent := by
  obtain ⟨e', hjob, hqueue, hattempt, hmax⟩ := job_recover s now q id e
  refine ⟨funext fun x ↦ ?_, funext fun x ↦ ?_⟩
  · show (Store.job _ x).map _ = (s.job x).map _
    rw [hjob]
    rcases eq_or_ne x id with rfl | hx
    · rw [Function.update_self, he]
      exact congrArg some hqueue
    · rw [Function.update_of_ne hx]
  · show (Store.job _ x).any _ = (s.job x).any _
    rw [hjob]
    rcases eq_or_ne x id with rfl | hx
    · rw [Function.update_self, he]
      show Redis.spent _ _ = Redis.spent _ _
      rw [hattempt, hmax]
    · rw [Function.update_of_ne hx]

/-- The body of the loop of `reap.lua` sweeps one job. -/
theorem swept_recover_redis (hown : Owned s) (hin : ((s.active q).lookup id).isSome)
    (he : s.job id = some e) (now : ℤ) :
    Swept [id] (redisView s)
      (redisView (Redis.Script.recover (s.zremActive q id) now q id e.hash)) := by
  have hq : (redisView s).queueOf id = some q := hown q id hin
  have hspent : (redisView s).spent id = Redis.spent e.hash.attempt e.hash.maxAttempts := by
    show (s.job id).any _ = _
    rw [he]
    rfl
  refine .one hq (redisView_recover he).1 (redisView_recover he).2 (fun x ↦ ?_) ?_
  · show (∃ q', (((Redis.Script.recover _ _ _ _ _).active q').lookup x).isSome) ↔
      (∃ q', ((s.active q').lookup x).isSome) ∧ x ≠ id
    simp only [active_recover]
    constructor
    · rintro ⟨q', hx⟩
      split_ifs at hx with hout
      · cases hx
      · refine ⟨⟨q', hx⟩, fun heq ↦ hout ⟨?_, heq⟩⟩
        have hq' := hown q' x hx
        rw [heq, show s.queueOf id = some q from hq] at hq'
        exact (Option.some.inj hq').symm
    · rintro ⟨⟨q', hx⟩, hne⟩
      exact ⟨q', by rwa [if_neg fun h ↦ hne h.2]⟩
  · rw [hspent, Redis.Script.recover]
    dsimp only
    split_ifs
    · refine ⟨rfl, fun x ↦ ?_⟩
      show ((s.dead.insert id now).lookup x).isSome ↔ (s.dead.lookup x).isSome ∨ x = id
      rw [Table.lookup_insert_eq]
      split_ifs with hx <;> simp [hx]
    · exact ⟨rfl, fun x ↦ Iff.rfl⟩

/-- **The loop of `reap.lua` sweeps** the members it fetched, and counts them. -/
theorem swept_reapLoop_redis (now : ℤ) (q : String) (ids : List String) :
    ∀ (k : ℕ × ℕ) (s : Store), ids.Nodup → Owned s →
    (∀ x ∈ ids, ((s.active q).lookup x).isSome) →
    (Redis.Script.reapLoop now q ids k s).1.1 + (Redis.Script.reapLoop now q ids k s).1.2 =
      k.1 + k.2 + ids.length ∧
    Swept ids (redisView s) (redisView (Redis.Script.reapLoop now q ids k s).2) ∧
    ∀ q' x, ((Redis.Script.reapLoop now q ids k s).2.active q').lookup x =
      if q' = q ∧ x ∈ ids then none else (s.active q').lookup x := by
  induction ids with
  | nil =>
    intro k s _ _ _
    exact ⟨rfl, .nil _, fun q' x ↦ by simp [Redis.Script.reapLoop]⟩
  | cons id ids ih =>
    intro k s hnodup hown hin
    rw [List.nodup_cons] at hnodup
    have hmem := hin id List.mem_cons_self
    rcases he : s.job id with - | e
    · have hq := hown q id hmem
      rw [Store.queueOf, he] at hq
      cases hq
    · have hjob : (s.zremActive q id).job id = some e := he
      have hone := swept_recover_redis hown hmem he now
      have hown' : Owned (Redis.Script.recover (s.zremActive q id) now q id e.hash) := by
        intro q' x hx
        rw [active_recover] at hx
        split_ifs at hx
        · cases hx
        · exact (congrFun hone.queueOf x).trans (hown q' x hx)
      have hin' : ∀ x ∈ ids, (((Redis.Script.recover (s.zremActive q id) now q id e.hash).active
          q).lookup x).isSome := by
        intro x hx
        rw [active_recover, if_neg (show ¬ (q = q ∧ x = id) from fun h ↦ hnodup.1 (h.2 ▸ hx))]
        exact hin x (List.mem_cons_of_mem id hx)
      obtain ⟨hcount, hswept, hactive⟩ := ih
        (if Redis.spent e.hash.attempt e.hash.maxAttempts then (k.1, k.2 + 1) else (k.1 + 1, k.2))
        _ hnodup.2 hown' hin'
      rw [Redis.Script.reapLoop, if_pos hmem]
      simp only [hjob]
      refine ⟨?_, hone.append hswept, fun q' x ↦ ?_⟩
      · rw [hcount, List.length_cons]
        split_ifs <;> dsimp only <;> omega
      · rw [hactive, active_recover]
        by_cases hx : q' = q ∧ x = id
        · rw [if_pos hx, ite_self, if_pos ⟨hx.1, hx.2 ▸ List.mem_cons_self⟩]
        · rw [if_neg hx]
          refine if_congr (and_congr_right fun hq ↦ ?_) rfl rfl
          rw [List.mem_cons, or_iff_right fun h ↦ hx ⟨hq, h⟩]

/-- One round of `Reap`. -/
theorem swept_reapQueue (hown : Owned s) {limit : ℤ} (hlim : 0 < limit)
    (hreads : Redis.Script.reads limit = true) (now : ℤ) (q : String) :
    (Redis.reapQueue s now q limit).1 = .ok ((expiredIn s now q).take limit.toNat).length ∧
    Swept ((expiredIn s now q).take limit.toNat) (redisView s)
      (redisView (Redis.reapQueue s now q limit).2) ∧
    Owned (Redis.reapQueue s now q limit).2 ∧
    ∀ q', expiredIn (Redis.reapQueue s now q limit).2 now q' =
      if q' = q then (expiredIn s now q).drop limit.toNat else expiredIn s now q' := by
  have hnodup : ((expiredIn s now q).take limit.toNat).Nodup :=
    (Table.keysOf_due_nodup _ _ now).sublist (List.take_sublist _ _)
  have hin : ∀ x ∈ (expiredIn s now q).take limit.toNat, ((s.active q).lookup x).isSome := by
    intro x hx
    obtain ⟨t, ht, -⟩ := Table.mem_keysOf_due.1 (List.mem_of_mem_take hx)
    rw [ht]
    rfl
  obtain ⟨hcount, hswept, hactive⟩ := swept_reapLoop_redis now q
    ((expiredIn s now q).take limit.toNat) (0, 0) s hnodup hown hin
  rw [Redis.reapQueue, if_neg (not_le.2 hlim), if_neg (by simp [hreads])]
  refine ⟨congrArg Except.ok (hcount.trans (zero_add _)), hswept, fun q' x hx ↦ ?_, fun q' ↦ ?_⟩
  · have hx' : (((Redis.Script.reapLoop now q ((expiredIn s now q).take limit.toNat)
        (0, 0) s).2.active q').lookup x).isSome := hx
    rw [hactive] at hx'
    split_ifs at hx'
    · cases hx'
    · exact (congrFun hswept.queueOf x).trans (hown q' x hx')
  · split_ifs with hq
    · subst hq
      rw [expiredIn, expiredIn, Table.keysOf, Table.keysOf, ← List.map_drop,
        Table.due_drop (n := limit.toNat) fun x ↦ ?_]
      exact (hactive q' x).trans (if_congr (and_iff_right rfl) rfl rfl)
    · rw [expiredIn, expiredIn, Table.due_congr fun x ↦ ?_]
      exact (hactive q' x).trans (if_neg fun h ↦ hq h.1)

end Redis

/-- **The loop of `Reap` over the queues sweeps** up to `limit` expired jobs of a queue, as often as
the queue is listed. -/
theorem swept_reap_redis {limit : ℤ} (hlim : 0 < limit) (hreads : Redis.Script.reads limit = true)
    (now : ℤ) (queues : List String) :
    ∀ (k : ℕ) (s : Store), Owned s → ∃ acted : List String, acted.Nodup ∧
      (∀ q, acted.filter (s.queueOf · = some q) =
        (expiredIn s now q).take (limit.toNat * queues.count q)) ∧
      (∀ x ∈ acted, ∃ q ∈ queues, s.queueOf x = some q) ∧
      (Redis.reapQueues now limit queues k s).1 = .ok (k + acted.length) ∧
      Swept acted (redisView s) (redisView (Redis.reapQueues now limit queues k s).2) := by
  induction queues with
  | nil =>
    intro k s _
    exact ⟨[], List.nodup_nil, fun q ↦ by simp, fun x hx ↦ (nomatch hx), rfl, .nil _⟩
  | cons q queues ih =>
    intro k s hown
    obtain ⟨hcount, hswept, hown', hleft⟩ := swept_reapQueue hown hlim hreads now q
    obtain ⟨s', hround⟩ : ∃ s', Redis.reapQueue s now q limit =
        (.ok ((expiredIn s now q).take limit.toNat).length, s') := ⟨_, Prod.ext hcount rfl⟩
    rw [hround] at hswept hown' hleft
    have hloop : Redis.reapQueues now limit (q :: queues) k s = Redis.reapQueues now limit queues
        (k + ((expiredIn s now q).take limit.toNat).length) s' := by
      rw [Redis.reapQueues, hround]
    have hqueue : s'.queueOf = s.queueOf := hswept.queueOf
    have hfirst : ∀ x ∈ (expiredIn s now q).take limit.toNat, s.queueOf x = some q := by
      intro x hx
      obtain ⟨t, ht, -⟩ := Table.mem_keysOf_due.1 (List.mem_of_mem_take hx)
      exact hown q x (by rw [ht]; rfl)
    obtain ⟨acted, hnodup, hfilter, hlisted, hcount', hswept'⟩ :=
      ih (k + ((expiredIn s now q).take limit.toNat).length) s' hown'
    rw [hqueue] at hfilter hlisted
    rw [hloop]
    refine ⟨(expiredIn s now q).take limit.toNat ++ acted, ?_, fun q' ↦ ?_, fun x hx ↦ ?_, ?_,
      hswept.append hswept'⟩
    · -- what the first round took is no longer leased when the others run
      have hall : (expiredIn s now q).Nodup := Table.keysOf_due_nodup _ _ now
      rw [← List.take_append_drop limit.toNat (expiredIn s now q)] at hall
      refine (List.nodup_append.1 hall).1.append hnodup fun x hx hx' ↦ ?_
      have hlater : x ∈ acted.filter (s.queueOf · = some q) :=
        List.mem_filter.2 ⟨hx', decide_eq_true (hfirst x hx)⟩
      rw [hfilter, hleft, if_pos rfl] at hlater
      exact (List.nodup_append.1 hall).2.2 x hx x (List.mem_of_mem_take hlater) rfl
    · rw [List.filter_append, hfilter, hleft]
      split_ifs with hq
      · subst hq
        rw [List.filter_eq_self.2 fun x hx ↦ decide_eq_true (hfirst x hx), List.count_cons_self,
          Nat.mul_succ, Nat.add_comm, List.take_add]
      · rw [List.filter_eq_nil_iff.2 fun x hx heq ↦ hq ?_, List.count_cons_of_ne (Ne.symm hq)]
        · rfl
        · rw [decide_eq_true_iff, hfirst x hx] at heq
          exact (Option.some.inj heq).symm
    · rcases List.mem_append.1 hx with hx | hx
      · exact ⟨q, List.mem_cons_self, hfirst x hx⟩
      · obtain ⟨q', hq', hx⟩ := hlisted x hx
        exact ⟨q', List.mem_cons_of_mem q hq', hx⟩
    · rw [List.length_append, ← Nat.add_assoc]
      exact hcount'

/-! ### Against one batch of all queues -/

/-- The expired leases on the listed queues, soonest first; an empty list stands for all queues. -/
def expiredOf (b : Broker) (now : Time) (queues : List String) : List String :=
  Table.keysOf (b.expired now queues)

/-- The first `limit` of them. -/
def batch (b : Broker) (now : Time) (queues : List String) (limit : ℤ) : List String :=
  (expiredOf b now queues).take limit.toNat

/-- Of each queue, the first `limit` of them for each time the queue is listed. -/
def queueBatch (b : Broker) (now : Time) (queues : List String) (limit : ℤ) (q : String) :
    List String :=
  ((expiredOf b now queues).filter (b.queueOf · = some q)).take (limit.toNat * queues.count q)

/-- The lease on the job has ended. -/
def Reaped (v v' : View) (id : String) : Prop := v.leased id ∧ ¬ v'.leased id

/-- **What both brokers are to do with a `Reap`** at the time `now`, in nanoseconds since the Unix
epoch: end the same leases, no more than `limit` of them, return how many, and leave the same ready
lists and the same jobs dead. -/
structure ReapAlike (b : Broker) (s : Store) (now : ℕ) (queues : List String) (limit : ℤ) :
    Prop where
  reaped : ∀ id, Reaped (memoryView b) (memoryView (b.reap now queues limit).2) id ↔
    Reaped (redisView s) (redisView (Redis.reap s (now / millisecond) queues limit).2) id
  count : (b.reap now queues limit).1 = (Redis.reap s (now / millisecond) queues limit).1
  ready : (b.reap now queues limit).2.pending =
    (Redis.reap s (now / millisecond) queues limit).2.ready
  dead : ∀ id, id ∈ (b.reap now queues limit).2.dead ↔
    ((Redis.reap s (now / millisecond) queues limit).2.dead.lookup id).isSome
  bounded : ∀ n, (Redis.reap s (now / millisecond) queues limit).1 = .ok n → n ≤ limit

variable {b : Broker} {s : Store} {now : ℕ} {queues : List String} {limit : ℤ} {id q : String}

/-- Who is a candidate is a job of a listed queue. -/
theorem queueOf_of_mem_expiredOf (hid : id ∈ expiredOf b now queues) :
    ∃ q, b.queueOf id = some q ∧ (queues = [] ∨ q ∈ queues) := by
  obtain ⟨t, -, -, hkeep⟩ := Table.mem_keysOf_due.1 hid
  rw [Broker.reapable] at hkeep
  rcases hj : b.jobs.lookup id with - | j <;> rw [hj] at hkeep
  · cases hkeep
  · refine ⟨j.queue, by rw [Broker.queueOf, hj]; rfl, ?_⟩
    simpa using hkeep

section

variable (C : SameLeases b s)

include C

/-- Corresponding brokers look the same. -/
theorem SameLeases.views : memoryView b = redisView s := by
  have hqueue : b.queueOf = s.queueOf := funext fun x ↦ (C.queueOf_eq x).symm
  have hspent : (memoryView b).spent = (redisView s).spent := by
    funext x
    show (b.jobs.lookup x).any Job.exhausted = (s.job x).any _
    rcases he : s.job x with - | e
    · rcases hj : b.jobs.lookup x with - | j
      · rfl
      · obtain ⟨e, he', -⟩ := C.of_job hj
        rw [he] at he'
        cases he'
    · obtain ⟨j, hj, halike⟩ := C.of_hash he
      obtain ⟨hpos, hle⟩ := C.budget x j hj
      have hm := Redis.distinguished_of_le (halike.maxAttempts ▸ hpos) (halike.maxAttempts ▸ hle)
      rw [hj]
      show j.exhausted = Redis.spent e.hash.attempt e.hash.maxAttempts
      rw [Job.exhausted, halike.attempt, halike.maxAttempts, Bool.eq_iff_iff, decide_eq_true_iff]
      exact ⟨Redis.spent_sound _ _, Redis.le_of_spent hm⟩
  have hleased : (memoryView b).leased = (redisView s).leased := by
    funext x
    refine propext ⟨fun hx ↦ ?_, ?_⟩
    · obtain ⟨t, ht⟩ := Option.isSome_iff_exists.1 hx
      obtain ⟨j, hj, -⟩ := C.active_state x t ht
      have hlease := C.active j.queue x
      rw [leasesOf, if_pos (by rw [Broker.queueOf, hj]; rfl), ht] at hlease
      obtain ⟨t₀, ht₀, -⟩ := Option.map_eq_some_iff.1 hlease.symm
      exact ⟨j.queue, by rw [ht₀]; rfl⟩
    · rintro ⟨q, hx⟩
      have hlease := C.active q x
      obtain ⟨t₀, ht₀⟩ := Option.isSome_iff_exists.1 hx
      rw [ht₀, leasesOf] at hlease
      split_ifs at hlease
      · show (b.active.lookup x).isSome
        rw [hlease]
        rfl
      · cases hlease
  have hdead : (memoryView b).dead = (redisView s).dead := funext fun x ↦ propext (C.dead x)
  exact View.ext hqueue hspent hleased C.ready hdead

theorem SameLeases.owned : Owned s := by
  intro q id hid
  have hlease := C.active q id
  obtain ⟨t₀, ht₀⟩ := Option.isSome_iff_exists.1 hid
  rw [ht₀, leasesOf] at hlease
  split_ifs at hlease with hq
  · rw [C.queueOf_eq]
    exact hq
  · cases hlease

/-- The candidates of one queue, as Redis finds them. -/
theorem SameLeases.filter_expiredOf (now : ℕ) (hq : q ∈ queues) :
    (expiredOf b now queues).filter (b.queueOf · = some q) =
      expiredIn s (now / millisecond) q := by
  have hkeep : (fun id ↦ b.reapable queues id && decide (b.queueOf id = some q)) =
      fun id ↦ decide (b.queueOf id = some q) := by
    funext id
    rw [Broker.reapable, Broker.queueOf]
    rcases hj : b.jobs.lookup id with - | j
    · rfl
    · by_cases hqueue : j.queue = q
      · simp [hqueue, hq]
      · simp [hqueue]
  have hmap : (expiredOf b now queues).filter (b.queueOf · = some q) =
      Table.keysOf ((b.expired now queues).filter fun p ↦ b.queueOf (ofLex p).2 = some q) :=
    List.filter_map
  rw [hmap, Broker.expired, Table.due_filter b.active (b.reapable queues)
    (fun id ↦ decide (b.queueOf id = some q)), hkeep, expiredIn]
  refine keysOf_due_at (Int.natCast_nonneg now) (fun id ↦ ?_) (C.active_nonneg q)
  simp only [decide_eq_true_iff]
  exact C.active q id

/-- **The in-memory broker sweeps one batch.** -/
theorem SameLeases.reap_inMemory (hlim : 0 < limit) (now : ℕ) (queues : List String) :
    (b.reap now queues limit).1 = .ok (batch b now queues limit).length ∧
    Swept (batch b now queues limit) (memoryView b)
      (memoryView (b.reap now queues limit).2) := by
  obtain ⟨hcount, hrec⟩ := Broker.recovered_reapLoop limit (b.expired now queues) 0 b
    (Table.keysOf_due_nodup _ _ _) fun c hc ↦ by
      obtain ⟨q, hq, -⟩ :=
        queueOf_of_mem_expiredOf (List.mem_map_of_mem (f := fun p ↦ (ofLex p).2) hc)
      obtain ⟨j, hj, -⟩ := Option.map_eq_some_iff.1 hq
      exact ⟨j, hj, C.keyed _ j hj⟩
  have hswept := swept_of_recovered hrec
  have hkeys : Table.keysOf ((b.expired now queues).take (limit - (0 : ℕ)).toNat) =
      batch b now queues limit := by
    rw [Nat.cast_zero, sub_zero, batch, expiredOf, Table.keysOf, Table.keysOf, List.map_take]
  rw [hkeys] at hswept
  rw [Broker.reap, if_neg (not_le.2 hlim), if_neg (by rw [C.opened]; decide)]
  refine ⟨congrArg Except.ok ?_, hswept⟩
  rw [hcount, zero_add, ← hkeys, Table.keysOf, List.length_map]

/-- **Redis sweeps a batch of each queue.** -/
theorem SameLeases.reap_inRedis (hlim : 0 < limit) (hreads : Redis.Script.reads limit = true)
    (now : ℕ) (queues : List String) :
    ∃ acted : List String, acted.Nodup ∧
      (∀ q, acted.filter (b.queueOf · = some q) = queueBatch b now queues limit q) ∧
      (∀ x ∈ acted, ∃ q ∈ queues, b.queueOf x = some q) ∧
      (Redis.reap s (now / millisecond) queues limit).1 = .ok acted.length ∧
      Swept acted (memoryView b)
        (redisView (Redis.reap s (now / millisecond) queues limit).2) := by
  obtain ⟨acted, hnodup, hfilter, hlisted, hcount, hswept⟩ :=
    swept_reap_redis hlim hreads (now / millisecond) queues 0 s C.owned
  have hqueue : s.queueOf = b.queueOf := funext C.queueOf_eq
  rw [hqueue] at hfilter hlisted
  rw [Redis.reap, if_neg (not_le.2 hlim), C.views]
  refine ⟨acted, hnodup, fun q ↦ ?_, hlisted,
    hcount.trans (congrArg Except.ok (zero_add _)), hswept⟩
  rw [hfilter, queueBatch]
  by_cases hq : q ∈ queues
  · rw [C.filter_expiredOf now hq]
  · rw [List.count_eq_zero_of_not_mem hq, mul_zero, List.take_zero, List.take_zero]

end

/-- Everything expired on the listed queues fits into the limit, or it is all on one queue that is
listed once; nothing may have expired at all if no queue is listed. -/
def FitsLimit (b : Broker) (now : Time) (queues : List String) (limit : ℤ) : Prop :=
  expiredOf b now queues = [] ∨ queues ≠ [] ∧
    ((expiredOf b now queues).length ≤ limit.toNat ∨
      ∃ q, queues.count q = 1 ∧ ∀ id ∈ expiredOf b now queues, b.queueOf id = some q)

/-- How often the queue of a job is listed. -/
def listed (queues : List String) (q : Option String) : ℕ := q.elim 0 queues.count

theorem listed_pos (hqueues : queues ≠ []) : ∀ id ∈ expiredOf b now queues,
    0 < listed queues (b.queueOf id) := by
  intro id hid
  obtain ⟨q, hq, hmem⟩ := queueOf_of_mem_expiredOf hid
  rw [hq]
  exact List.count_pos_iff.2 (hmem.resolve_left hqueues)

/-- Leases that were swept have ended, and no others. -/
theorem Swept.reaped_iff {ids : List String} {v v' : View} (h : Swept ids v v')
    (hids : ∀ x ∈ ids, v.leased x) (x : String) : Reaped v v' x ↔ x ∈ ids := by
  rw [Reaped, h.leased, not_and, not_not]
  exact ⟨fun hx ↦ hx.2 hx.1, fun hx ↦ ⟨hids x hx, fun _ ↦ hx⟩⟩

/-- Sweeps of the same jobs of each queue leave the same ready lists. -/
theorem Swept.ready_eq {l l' : List String} {v v₁ v₂ : View} (h : Swept l v v₁) (h' : Swept l' v v₂)
    (hsame : ∀ q, l.filter (v.queueOf · = some q) = l'.filter (v.queueOf · = some q)) :
    v₁.ready = v₂.ready := by
  have hsplit : ∀ (l : List String) (q : String),
      l.filter (fun x ↦ v.queueOf x = some q ∧ v.spent x = false) =
        (l.filter (v.queueOf · = some q)).filter (v.spent · = false) := fun l q ↦ by
    rw [List.filter_filter]
    refine List.filter_congr fun x _ ↦ ?_
    rw [Bool.decide_and, Bool.and_comm]
  funext q
  rw [h.ready, h'.ready, hsplit, hsplit, hsame]

/-- In the batches are leased jobs. -/
theorem leased_of_mem_expiredOf (hid : id ∈ expiredOf b now queues) : (memoryView b).leased id := by
  obtain ⟨t, ht, -⟩ := Table.mem_keysOf_due.1 hid
  exact Option.isSome_of_eq_some ht

/-- A list is known by its jobs of each queue. -/
theorem mem_iff_mem_filter {l : List String} (hl : ∀ x ∈ l, ∃ q, b.queueOf x = some q) :
    id ∈ l ↔ ∃ q, id ∈ l.filter (b.queueOf · = some q) := by
  constructor
  · intro hid
    obtain ⟨q, hq⟩ := hl id hid
    exact ⟨q, List.mem_filter.2 ⟨hid, decide_eq_true hq⟩⟩
  · rintro ⟨q, hid⟩
    exact (List.mem_filter.1 hid).1

/-- Who is in the batch of all is in the batch of their queue. -/
theorem mem_queueBatch_of_mem_batch (hqueues : queues ≠ []) (hid : id ∈ batch b now queues limit) :
    ∃ q ∈ queues, id ∈ queueBatch b now queues limit q := by
  obtain ⟨q, hq, hmem⟩ := queueOf_of_mem_expiredOf (List.mem_of_mem_take hid)
  have hlisted := hmem.resolve_left hqueues
  have hin := Batch.mem_take_filter (p := (b.queueOf · = some q)) hid (decide_eq_true hq)
  refine ⟨q, hlisted, List.take_subset_take_left _ ?_ hin⟩
  exact Nat.le_mul_of_pos_right _ (List.count_pos_iff.2 hlisted)

/-- If the batches of the queues take no more than the batch of all, everything fits. -/
theorem fitsLimit_of_subset (hlim : 1 ≤ limit) (hqueues : queues ≠ [])
    (hsub : ∀ q, ∀ id ∈ queueBatch b now queues limit q, id ∈ batch b now queues limit) :
    FitsLimit b now queues limit := by
  refine .inr ⟨hqueues, ?_⟩
  have hclasses := (Batch.forall_mem_take_iff (n := limit.toNat)
    (Table.keysOf_due_nodup b.active (b.reapable queues) now) (by omega) b.queueOf (listed queues)
    (listed_pos hqueues)).1 fun id hid ↦ ?_
  · refine hclasses.imp_right ?_
    rintro ⟨_ | q, hone, hall⟩
    · cases hone
    · exact ⟨q, hone, hall⟩
  · have hmem := List.mem_filter.1 (List.mem_of_mem_take hid)
    obtain ⟨q, hq, -⟩ := queueOf_of_mem_expiredOf hmem.1
    rw [hq] at hid
    exact hsub q id hid

/-- If everything fits, the batch of all is made of the batches of the queues. -/
theorem filter_batch (hfits : FitsLimit b now queues limit) (q : String) :
    (batch b now queues limit).filter (b.queueOf · = some q) = queueBatch b now queues limit q := by
  rw [batch, queueBatch]
  rcases hfits with hnone | ⟨hqueues, hfits⟩
  · rw [hnone, List.take_nil, List.filter_nil, List.take_nil]
  · refine Batch.filter_take_eq (k := listed queues) (listed_pos hqueues) (hfits.imp_right ?_)
      (some q)
    rintro ⟨q, hone, hall⟩
    exact ⟨some q, hone, hall⟩

/-- **What a `Reap` does in either broker**, at corresponding states. The in-memory broker ends the
first `limit` expired leases on the listed queues. Redis ends the first `limit` of each queue, as
often as it is listed, and so at least those that the in-memory broker ends. Both return the number
of leases ended and do the same to each of the jobs. They agree throughout, and stay within the
limit, exactly if everything fits into it. The limit is one that a double holds, so that the script
can pass it on. -/
theorem reaps_per_queue (C : SameLeases b s) (now : ℕ) (queues : List String) (hlim : 1 ≤ limit)
    (hmax : limit ≤ 2 ^ 53) :
    ((b.reap now queues limit).1 = .ok (batch b now queues limit).length ∧
      Swept (batch b now queues limit) (memoryView b) (memoryView (b.reap now queues limit).2)) ∧
    (∃ acted : List String, acted.Nodup ∧
      (∀ id, id ∈ acted ↔ ∃ q ∈ queues, id ∈ queueBatch b now queues limit q) ∧
      (∀ q, acted.filter (b.queueOf · = some q) = queueBatch b now queues limit q) ∧
      (Redis.reap s (now / millisecond) queues limit).1 = .ok acted.length ∧
      Swept acted (redisView s) (redisView (Redis.reap s (now / millisecond) queues limit).2)) ∧
    (queues ≠ [] → ∀ id, Reaped (memoryView b) (memoryView (b.reap now queues limit).2) id →
      Reaped (redisView s) (redisView (Redis.reap s (now / millisecond) queues limit).2) id) ∧
    (ReapAlike b s now queues limit ↔ FitsLimit b now queues limit) := by
  obtain ⟨hcount, hswept⟩ := C.reap_inMemory hlim now queues
  obtain ⟨acted, hnodup, hfilter, hlisted, hcount', hswept'⟩ :=
    C.reap_inRedis hlim (Redis.Script.reads_of_le hmax) now queues
  have hsome : ∀ x ∈ acted, ∃ q, b.queueOf x = some q := fun x hx ↦ by
    obtain ⟨q, -, hq⟩ := hlisted x hx
    exact ⟨q, hq⟩
  have hbatch : ∀ x ∈ batch b now queues limit, x ∈ expiredOf b now queues := fun x hx ↦
    List.mem_of_mem_take hx
  have hacted : ∀ x ∈ acted, x ∈ expiredOf b now queues := fun x hx ↦ by
    obtain ⟨q, hx⟩ := (mem_iff_mem_filter hsome).1 hx
    rw [hfilter] at hx
    exact (List.mem_filter.1 (List.mem_of_mem_take hx)).1
  have hreaped := hswept.reaped_iff fun x hx ↦ leased_of_mem_expiredOf (hbatch x hx)
  have hreaped' := hswept'.reaped_iff fun x hx ↦ leased_of_mem_expiredOf (hacted x hx)
  have hmem : ∀ id, id ∈ acted ↔ ∃ q ∈ queues, id ∈ queueBatch b now queues limit q := by
    intro id
    constructor
    · intro hid
      obtain ⟨q, hq, hqueue⟩ := hlisted id hid
      exact ⟨q, hq, hfilter q ▸ List.mem_filter.2 ⟨hid, decide_eq_true hqueue⟩⟩
    · rintro ⟨q, -, hid⟩
      rw [← hfilter] at hid
      exact (List.mem_filter.1 hid).1
  refine ⟨⟨hcount, hswept⟩, ⟨acted, hnodup, hmem, hfilter, hcount', C.views ▸ hswept'⟩, ?_, ?_⟩
  · intro hqueues id hid
    rw [← C.views, hreaped', hmem]
    exact mem_queueBatch_of_mem_batch hqueues ((hreaped id).1 hid)
  · constructor
    · intro halike
      have hsame : ∀ id, id ∈ batch b now queues limit ↔ id ∈ acted := fun id ↦ by
        rw [← hreaped, halike.reaped, ← C.views, hreaped']
      by_cases hqueues : queues = []
      · have hnone : batch b now queues limit = [] := by
          refine List.eq_nil_iff_forall_not_mem.2 fun id hid ↦ ?_
          obtain ⟨q, hq, -⟩ := hlisted id ((hsame id).1 hid)
          rw [hqueues] at hq
          cases hq
        exact .inl ((List.take_eq_nil_iff.1 hnone).resolve_left (by omega))
      · refine fitsLimit_of_subset hlim hqueues fun q id hid ↦ (hsame id).2 ?_
        rw [← hfilter] at hid
        exact (List.mem_filter.1 hid).1
    · intro hfits
      have hfilter' : ∀ q, (batch b now queues limit).filter (b.queueOf · = some q) =
          acted.filter (b.queueOf · = some q) := fun q ↦ by rw [filter_batch hfits, hfilter]
      have hsome' : ∀ x ∈ batch b now queues limit, ∃ q, b.queueOf x = some q := fun x hx ↦ by
        obtain ⟨q, hq, -⟩ := queueOf_of_mem_expiredOf (hbatch x hx)
        exact ⟨q, hq⟩
      have hsame : ∀ id, id ∈ batch b now queues limit ↔ id ∈ acted := fun id ↦ by
        simp only [mem_iff_mem_filter hsome, mem_iff_mem_filter hsome', hfilter']
      have hlength : acted.length = (batch b now queues limit).length :=
        ((List.perm_ext_iff_of_nodup hnodup ((Table.keysOf_due_nodup _ _ _).sublist
          (List.take_sublist _ _))).2 fun id ↦ (hsame id).symm).length_eq
      refine ⟨fun id ↦ ?_, ?_, hswept.ready_eq hswept' hfilter', fun id ↦ ?_, ?_⟩
      · rw [hreaped, ← C.views, hreaped', hsame]
      · rw [hcount, hcount', hlength]
      · refine (hswept.dead id).trans (Iff.trans ?_ (hswept'.dead id).symm)
        rw [hsame]
      · intro n hn
        obtain rfl := Except.ok.inj (hcount'.symm.trans hn)
        rw [hlength, batch, List.length_take]
        omega

/-- Two workers that died: each held a job of its own queue until 2 ms. -/
def orphaned : Pair :=
  [(⟨1, .enqueue "a" 0 (some (Job.plain "q" "t" 3))⟩ : Request),
    ⟨1, .enqueue "b" 0 (some (Job.plain "r" "t" 3))⟩,
    ⟨1, .dequeue ⟨"v", ["q"], millisecond⟩⟩,
    ⟨1, .dequeue ⟨"w", ["r"], millisecond⟩⟩].foldl
    (next keepNone) .new

theorem simulates_orphaned : Simulates orphaned := by
  simp only [orphaned, List.foldl_cons, List.foldl_nil]
  refine .next (.next (.next (.next simulates_new ?_) ?_) ?_) ?_
  · exact ⟨by decide, by decide,
      show _ ∧ _ from ⟨fair_plain (by decide) "q" (.inl rfl), by decide⟩⟩
  · exact ⟨by decide, by decide,
      show _ ∧ _ from ⟨fair_plain (by decide) "r" (.inl rfl), by decide⟩⟩
  · exact ⟨by decide, by decide, show Whole _ from ⟨1, rfl⟩⟩
  · exact ⟨by decide, by decide, show Whole _ from ⟨1, rfl⟩⟩

/-- With a limit of 1 Redis recovers both jobs. -/
theorem limit_exceeded : ∃ b s, SameLeases b s ∧ ¬ ReapAlike b s (5 * 10 ^ 6) ["q", "r"] 1 := by
  refine ⟨orphaned.memory, orphaned.redis, simulates_orphaned.lockstep.sameLeases, fun halike ↦ ?_⟩
  have hboth : (Redis.reap orphaned.redis (5 * 10 ^ 6 / millisecond) ["q", "r"] 1).1 = .ok 2 := by
    decide +kernel
  exact absurd (halike.bounded 2 hboth) (by decide)

/-- With a limit of 2 the in-memory broker recovers both as well. -/
theorem reaps_per_queue_orphaned : SameLeases orphaned.memory orphaned.redis ∧
    ReapAlike orphaned.memory orphaned.redis (5 * 10 ^ 6) ["q", "r"] 2 :=
  ⟨simulates_orphaned.lockstep.sameLeases,
    (reaps_per_queue simulates_orphaned.lockstep.sameLeases _ _ (by decide) (by decide)).2.2.2.2
      (.inr ⟨by decide, .inl (by decide)⟩)⟩

end TaskQueue.Conformance
