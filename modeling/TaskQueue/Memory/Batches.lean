import Mathlib.Algebra.CharP.Defs
import Mathlib.Data.Finset.Card
import Mathlib.Tactic.Ring
import TaskQueue.Data.Batch
import TaskQueue.Memory.Location

/-!
# What a batch leaves behind

`Reap`, `Promote` and `RetryDead` first collect the jobs they will act on and then move them one by
one. For each of the three this module computes **the whole broker** the loop leaves: the envelopes,
the ready lists with their order, the set the jobs came from, and that nothing else changed
(`Recovered`, `Promoted`, `Replayed`). What was collected is a list without repetitions, so a job
that is still to be moved is as it was when it was collected, and the effects add up.

Over runs this gives the sweeps in full (`maintenance_exact`), and `RetryDead` whenever it names no
dead job twice (`retryDead_exact_iff`). A list that does repeat one is where it goes wrong: the
repeated job is put on its ready list as often as it is named. Two workers can then hold it, one of
them can dead-letter it while the other retries it, and once it is purged the retry set mentions a
job that is gone, which `Promote` drops without counting it.
-/

namespace TaskQueue.Memory

open Table

namespace Broker

variable {b b₁ b' : Broker} {now : Time} {id : String} {j : Job} {ids : List String}
  {f : Job → Job}

/-- The queue of a stored job. -/
def queueOf (b : Broker) (id : String) : Option String := (b.jobs.lookup id).map Job.queue

/-- Whether the attempts of a stored job are used up. -/
def spentOf (b : Broker) (id : String) : Bool := (b.jobs.lookup id).any Job.exhausted

/-! ### Envelopes -/

/-- The envelopes of the jobs `ids`, and no others, are rewritten. -/
def Rewritten (ids : List String) (f : Job → Job) (b b' : Broker) : Prop :=
  ∀ x, b'.jobs.lookup x = if x ∈ ids then (b.jobs.lookup x).map f else b.jobs.lookup x

theorem Rewritten.nil : Rewritten [] f b b := by simp [Rewritten]

/-- One more job is rewritten, before the others. -/
theorem Rewritten.cons (hj : b.jobs.lookup id = some j) (hid : id ∉ ids)
    (hjobs : b₁.jobs = b.jobs.insert id (f j)) (h : Rewritten ids f b₁ b') :
    Rewritten (id :: ids) f b b' := by
  intro x
  rw [h x, hjobs, lookup_insert_eq]
  by_cases hx : x = id
  · subst hx
    simp [hid, hj]
  · simp [hx]

/-- A job that is still to be moved is as it was. -/
theorem lookup_of_mem {j' : Job} (hjobs : b₁.jobs = b.jobs.insert id j') (hid : id ∉ ids)
    {x : String} (hx : x ∈ ids) : b₁.jobs.lookup x = b.jobs.lookup x := by
  rw [hjobs, AList.lookup_insert_ne]
  rintro rfl
  exact hid hx

/-- So a selection of the jobs to be moved that reads their envelopes is what it was. -/
theorem filter_of_notMem {p : Broker → String → Bool} {j' : Job}
    (hp : ∀ {b b' : Broker} {x : String}, b'.jobs.lookup x = b.jobs.lookup x → p b' x = p b x)
    (hjobs : b₁.jobs = b.jobs.insert id j') (hid : id ∉ ids) :
    ids.filter (p b₁) = ids.filter (p b) :=
  List.filter_congr fun _ hx ↦ hp (lookup_of_mem hjobs hid hx)

theorem queueOf_congr {x : String} (h : b'.jobs.lookup x = b.jobs.lookup x) :
    b'.queueOf x = b.queueOf x := congrArg (Option.map Job.queue) h

theorem spentOf_congr {x : String} (h : b'.jobs.lookup x = b.jobs.lookup x) :
    b'.spentOf x = b.spentOf x := congrArg (Option.any Job.exhausted) h

theorem queueOf_eq_some (hj : b.jobs.lookup id = some j) : b.queueOf id = some j.queue := by
  rw [queueOf, hj, Option.map_some]

theorem spentOf_eq (hj : b.jobs.lookup id = some j) : b.spentOf id = j.exhausted := by
  rw [spentOf, hj, Option.any_some]

/-! ### Reap -/

/-- The envelope of a job whose lease ended by expiry. -/
def recoveredJob (j : Job) : Job :=
  if j.exhausted then
    { j with
      owner := ""
      recoveries := j.recoveries + 1
      lastErr := orphaned j.attempt
      state := .dead }
  else { j with owner := "", recoveries := j.recoveries + 1, state := .pending }

/-- **The jobs `ids` were reaped**, one after the other. -/
structure Recovered (ids : List String) (b b' : Broker) : Prop where
  jobs : Rewritten ids recoveredJob b b'
  active : ∀ x, b'.active.lookup x = if x ∈ ids then none else b.active.lookup x
  pending : ∀ q, b'.pending q =
    (ids.filter fun x ↦ b.queueOf x = some q && !b.spentOf x).reverse ++ b.pending q
  dead : b'.dead = b.dead ++ ids.filter b.spentOf
  failed : b'.failed = b.failed + (ids.filter b.spentOf).length
  rest : b' = { b with
    jobs := b'.jobs
    active := b'.active
    pending := b'.pending
    dead := b'.dead
    failed := b'.failed }

theorem Recovered.nil : Recovered [] b b :=
  ⟨.nil, by simp, by simp, by simp, by simp, rfl⟩

theorem recover_jobs (b : Broker) (id : String) (j : Job) :
    (b.recover id j).jobs = b.jobs.insert id (recoveredJob j) := by
  have hsame : Job.exhausted { j with owner := "", recoveries := j.recoveries + 1 } = j.exhausted :=
    rfl
  rw [recover, recoveredJob]
  simp only [hsame]
  split_ifs <;> rfl

theorem recover_of_exhausted (hex : j.exhausted = true) (hid : j.id = id) :
    b.recover id j = { b with
      jobs := b.jobs.insert id (recoveredJob j)
      active := b.active.erase id
      dead := b.dead ++ [id]
      failed := b.failed + 1 } := by
  subst hid
  have hsame : Job.exhausted { j with owner := "", recoveries := j.recoveries + 1 } = true := hex
  rw [recover, recoveredJob]
  simp only [hsame, hex, if_true, moveToDeadLocked, dropLease]

theorem recover_of_not_exhausted (hex : j.exhausted = false) :
    b.recover id j = { b with
      jobs := b.jobs.insert id (recoveredJob j)
      active := b.active.erase id
      pending := Function.update b.pending j.queue (id :: b.pending j.queue) } := by
  have hsame : Job.exhausted { j with owner := "", recoveries := j.recoveries + 1 } = false := hex
  rw [recover, recoveredJob]
  simp only [hsame, hex, Bool.false_eq_true, if_false, dropLease]

/-- One more job is reaped, before the others. -/
theorem Recovered.cons (hj : b.jobs.lookup id = some j) (hkey : j.id = id) (hid : id ∉ ids)
    (h : Recovered ids (b.recover id j) b') : Recovered (id :: ids) b b' := by
  have hjobs := recover_jobs b id j
  have hspent := filter_of_notMem (p := spentOf) spentOf_congr hjobs hid
  have hqueue (q : String) := filter_of_notMem
    (p := fun b x ↦ b.queueOf x = some q && !b.spentOf x)
    (fun hx ↦ by rw [queueOf_congr hx, spentOf_congr hx]) hjobs hid
  have hactive : (b.recover id j).active = b.active.erase id := by
    rcases hex : j.exhausted with - | -
    · rw [recover_of_not_exhausted hex]
    · rw [recover_of_exhausted hex hkey]
  refine ⟨h.jobs.cons hj hid hjobs, fun x ↦ ?_, fun q ↦ ?_, ?_, ?_, ?_⟩
  · rw [h.active, hactive, lookup_erase_eq]
    by_cases hx : x = id <;> simp [hx]
  · rw [h.pending, hqueue q]
    rcases hex : j.exhausted with - | -
    · rw [recover_of_not_exhausted hex]
      simp only
      rw [Batch.update_cons b.pending (queueOf_eq_some hj)]
      by_cases hq : j.queue = q <;> simp [queueOf_eq_some hj, spentOf_eq hj, hex, hq]
    · rw [recover_of_exhausted hex hkey]
      simp [spentOf_eq hj, hex]
  · rw [h.dead, hspent]
    rcases hex : j.exhausted with - | -
    · rw [recover_of_not_exhausted hex, List.filter_cons_of_neg (by simp [spentOf_eq hj, hex])]
    · rw [recover_of_exhausted hex hkey, List.filter_cons_of_pos (by simp [spentOf_eq hj, hex])]
      simp
  · rw [h.failed, hspent]
    rcases hex : j.exhausted with - | -
    · rw [recover_of_not_exhausted hex, List.filter_cons_of_neg (by simp [spentOf_eq hj, hex])]
    · rw [recover_of_exhausted hex hkey, List.filter_cons_of_pos (by simp [spentOf_eq hj, hex]),
        List.length_cons]
      push_cast
      ring
  · rw [h.rest]
    rcases hex : j.exhausted with - | -
    · rw [recover_of_not_exhausted hex]
    · rw [recover_of_exhausted hex hkey]

/-- **The loop of `Reap`** acts on the candidates that fit, and counts them. -/
theorem recovered_reapLoop (limit : ℤ) (cs : List (Time ×ₗ String)) :
    ∀ (k : ℕ) (b : Broker), (keysOf cs).Nodup →
    (∀ c ∈ cs, ∃ j, b.jobs.lookup (ofLex c).2 = some j ∧ j.id = (ofLex c).2) →
    (reapLoop limit cs k b).1 = k + (cs.take (limit - k).toNat).length ∧
      Recovered (keysOf (cs.take (limit - k).toNat)) b (reapLoop limit cs k b).2 := by
  induction cs with
  | nil =>
    intro k b _ _
    rw [List.take_nil]
    exact ⟨rfl, .nil⟩
  | cons c cs ih =>
    intro k b hnodup hjobs
    rw [reapLoop]
    split_ifs with hlim
    · rw [Int.toNat_of_nonpos (by omega)]
      exact ⟨rfl, .nil⟩
    · obtain ⟨j, hj, hkey⟩ := hjobs c List.mem_cons_self
      rw [keysOf_cons, List.nodup_cons] at hnodup
      have hsucc : (limit - k).toNat = (limit - (k + 1 : ℕ)).toNat + 1 := by omega
      obtain ⟨hcount, hrec⟩ := ih (k + 1) (b.recover (ofLex c).2 j) hnodup.2 fun c' hc' ↦ by
        rw [lookup_of_mem (recover_jobs b _ j) hnodup.1 (List.mem_map_of_mem hc')]
        exact hjobs c' (List.mem_cons_of_mem c hc')
      rw [hj, hsucc, List.take_succ_cons, keysOf_cons]
      refine ⟨by rw [hcount, List.length_cons]; omega, hrec.cons hj hkey fun hin ↦ ?_⟩
      rw [keysOf, List.map_take] at hin
      exact hnodup.1 (List.mem_of_mem_take hin)

/-! ### Promote -/

/-- The envelope of a job that was promoted. -/
def promotedJob (j : Job) : Job := { j with state := .pending }

/-- **The jobs `ids` were promoted**, one after the other. -/
structure Promoted (ids : List String) (b b' : Broker) : Prop where
  jobs : Rewritten ids promotedJob b b'
  waitSet : ∀ set x, (b'.waitSet set).lookup x =
    if x ∈ ids then none else (b.waitSet set).lookup x
  pending : ∀ q, b'.pending q = b.pending q ++ ids.filter (b.queueOf · = some q)
  rest : b' = { b with
    jobs := b'.jobs
    scheduled := b'.scheduled
    retry := b'.retry
    pending := b'.pending }

theorem Promoted.nil : Promoted [] b b := ⟨.nil, by simp, by simp, rfl⟩

theorem waitSet_promoteJob (set set' : WaitSet) (id x : String) (j : Job) :
    ((b.promoteJob set id j).waitSet set').lookup x =
      if x = id ∧ set' = set then none else (b.waitSet set').lookup x := by
  rcases set with - | - <;> rcases set' with - | - <;>
    simp [promoteJob, leaveSet, Broker.waitSet, lookup_erase_eq]

theorem pending_promoteJob (set : WaitSet) (hj : b.jobs.lookup id = some j) (q : String) :
    (b.promoteJob set id j).pending q = b.pending q ++ [id].filter (b.queueOf · = some q) := by
  rw [promoteJob_pending, Batch.update_concat b.pending (queueOf_eq_some hj)]

/-- One more job is promoted, before the others. -/
theorem Promoted.cons {set : WaitSet} (hj : b.jobs.lookup id = some j) (hid : id ∉ ids)
    (hother : ∀ set', set' ≠ set → (b.waitSet set').lookup id = none)
    (h : Promoted ids (b.promoteJob set id j) b') : Promoted (id :: ids) b b' := by
  have hjobs : (b.promoteJob set id j).jobs = b.jobs.insert id (promotedJob j) :=
    promoteJob_jobs set
  have hqueue (q : String) := filter_of_notMem (p := fun b x ↦ b.queueOf x = some q)
    (fun hx ↦ by rw [queueOf_congr hx]) hjobs hid
  refine ⟨h.jobs.cons hj hid hjobs, fun set' x ↦ ?_, fun q ↦ ?_, ?_⟩
  · rw [h.waitSet, waitSet_promoteJob]
    by_cases hx : x = id
    · subst hx
      by_cases hset : set' = set
      · simp [hset]
      · simp [hid, hset, hother set' hset]
    · simp [hx]
  · rw [h.pending, hqueue q, pending_promoteJob set hj, List.append_assoc, ← List.filter_append]
    rfl
  · rw [h.rest]
    cases set <;> rfl

/-- **The loop of `Promote`** acts on the candidates that fit, and counts them. -/
theorem promoted_promoteLoop (limit : ℤ) (cs : List ((Time ×ₗ String) × WaitSet)) :
    ∀ (k : ℕ) (b : Broker), (cs.map fun c ↦ (ofLex c.1).2).Nodup →
    (∀ c ∈ cs, (∃ j, b.jobs.lookup (ofLex c.1).2 = some j) ∧
      ∀ set, set ≠ c.2 → (b.waitSet set).lookup (ofLex c.1).2 = none) →
    (promoteLoop limit cs k b).1 = k + (cs.take (limit - k).toNat).length ∧
      Promoted ((cs.take (limit - k).toNat).map fun c ↦ (ofLex c.1).2) b
        (promoteLoop limit cs k b).2 := by
  induction cs with
  | nil =>
    intro k b _ _
    rw [List.take_nil]
    exact ⟨rfl, .nil⟩
  | cons c cs ih =>
    intro k b hnodup hcs
    rw [promoteLoop]
    split_ifs with hlim
    · rw [Int.toNat_of_nonpos (by omega)]
      exact ⟨rfl, .nil⟩
    · obtain ⟨⟨j, hj⟩, hother⟩ := hcs c List.mem_cons_self
      rw [List.map_cons, List.nodup_cons] at hnodup
      have hsucc : (limit - k).toNat = (limit - (k + 1 : ℕ)).toNat + 1 := by omega
      obtain ⟨hcount, hprom⟩ := ih (k + 1) (b.promoteJob c.2 (ofLex c.1).2 j) hnodup.2
        fun c' hc' ↦ by
          have hin : (ofLex c'.1).2 ∈ cs.map fun c ↦ (ofLex c.1).2 := List.mem_map_of_mem hc'
          have hne : (ofLex c'.1).2 ≠ (ofLex c.1).2 := fun heq ↦ hnodup.1 (heq ▸ hin)
          rw [lookup_of_mem (promoteJob_jobs c.2) hnodup.1 hin]
          refine ⟨(hcs c' (List.mem_cons_of_mem c hc')).1, fun set hset ↦ ?_⟩
          rw [waitSet_promoteJob, if_neg fun h ↦ hne h.1]
          exact (hcs c' (List.mem_cons_of_mem c hc')).2 set hset
      rw [hj, hsucc, List.take_succ_cons, List.map_cons]
      refine ⟨by rw [hcount, List.length_cons]; omega, hprom.cons hj (fun hin ↦ ?_) hother⟩
      rw [List.map_take] at hin
      exact hnodup.1 (List.mem_of_mem_take hin)

/-! ### RetryDead -/

/-- The envelope of a job that was replayed. -/
def replayedJob (j : Job) : Job :=
  { j with state := .pending, attempt := 0, recoveries := 0, owner := "" }

/-- **The jobs `ids` were replayed**, one after the other. -/
structure Replayed (ids : List String) (b b' : Broker) : Prop where
  jobs : Rewritten ids replayedJob b b'
  pending : ∀ q, b'.pending q = b.pending q ++ ids.filter (b.queueOf · = some q)
  dead : b'.dead = b.dead.filter (· ∉ ids)
  rest : b' = { b with jobs := b'.jobs, pending := b'.pending, dead := b'.dead }

theorem Replayed.nil : Replayed [] b b := ⟨.nil, by simp, by simp, rfl⟩

/-- One more job is replayed, before the others. -/
theorem Replayed.cons (hj : b.jobs.lookup id = some j) (hid : id ∉ ids) (hdead : b.dead.Nodup)
    (h : Replayed ids (b.replay id j) b') : Replayed (id :: ids) b b' := by
  have hjobs : (b.replay id j).jobs = b.jobs.insert id (replayedJob j) := rfl
  have hqueue (q : String) := filter_of_notMem (p := fun b x ↦ b.queueOf x = some q)
    (fun hx ↦ by rw [queueOf_congr hx]) hjobs hid
  refine ⟨h.jobs.cons hj hid hjobs, fun q ↦ ?_, ?_, ?_⟩
  · have hmoved : (b.replay id j).pending q = b.pending q ++ [id].filter (b.queueOf · = some q) :=
      Batch.update_concat b.pending (queueOf_eq_some hj) q
    rw [h.pending, hqueue q, hmoved, List.append_assoc, ← List.filter_append]
    rfl
  · have herase : (b.replay id j).dead = b.dead.filter (· != id) := hdead.erase_eq_filter id
    rw [h.dead, herase, List.filter_filter]
    refine List.filter_congr fun x _ ↦ ?_
    by_cases hx : x = id <;> simp [hx]
  · rw [h.rest]
    rfl

/-- **The loop of `RetryDead`** on a list without repetitions. -/
theorem replayed_retryLoop : ∀ (ids : List String) (k : ℕ) (b : Broker), ids.Nodup →
    b.dead.Nodup → (∀ x ∈ ids, ∃ j, b.jobs.lookup x = some j) →
    Replayed ids b (retryLoop ids k b).2
  | [], _, _, _, _, _ => .nil
  | id :: ids, k, b, hnodup, hdead, hjobs => by
    rw [List.nodup_cons] at hnodup
    obtain ⟨j, hj⟩ := hjobs id List.mem_cons_self
    rw [retryLoop, hj]
    refine .cons hj hnodup.1 hdead (replayed_retryLoop ids (k + 1) _ hnodup.2 (hdead.erase id)
      fun x hx ↦ ?_)
    rw [lookup_of_mem (rfl : (b.replay id j).jobs = _) hnodup.1 hx]
    exact hjobs x (List.mem_cons_of_mem id hx)

/-- It counts every mention of a stored job, repeated or not. -/
theorem count_retryLoop : ∀ (ids : List String) (k : ℕ) (b : Broker),
    (∀ x ∈ ids, ∃ j, b.jobs.lookup x = some j) → (retryLoop ids k b).1 = k + ids.length
  | [], _, _, _ => rfl
  | id :: ids, k, b, hjobs => by
    obtain ⟨j, hj⟩ := hjobs id List.mem_cons_self
    rw [retryLoop, hj]
    refine (count_retryLoop ids (k + 1) _ fun x hx ↦ ?_).trans (by rw [List.length_cons]; omega)
    -- a job that was replayed is still stored
    show ∃ j', (b.jobs.insert id (replayedJob j)).lookup x = some j'
    rw [lookup_insert_eq]
    split_ifs
    · exact ⟨_, rfl⟩
    · exact hjobs x (List.mem_cons_of_mem id hx)

end Broker

/-! ### Replays, exactly -/

section RetryDead

variable {b : Broker} {ids : List String}

open Broker

/-- The dead jobs that `ids` names, in the order in which it first mentions them. -/
def named (b : Broker) (ids : List String) : List String :=
  (ids.filter (· ∈ b.dead)).eraseDups

/-- **Each dead job that is named is replayed once.** The call returns how many there are; each is
pending with a fresh budget and without an owner, and stands once on the ready list of its queue,
behind what was there and in the order of first mention; the other dead jobs stay as they are, and
so does everything else. -/
structure ReplaysOnce (b : Broker) (ids : List String) : Prop where
  count : (b.retryDead ids).1 = .ok (ids.toFinset ∩ b.dead.toFinset).card
  once : ∀ id ∈ named b ids, ∃ j, b.jobs.lookup id = some j ∧
    (b.retryDead ids).2.jobs.lookup id = some (replayedJob j) ∧
    ((b.retryDead ids).2.pending j.queue).count id = 1 ∧ id ∉ (b.retryDead ids).2.dead
  replayed : Replayed (named b ids) b (b.retryDead ids).2

theorem selectDeadLocked_eq (hids : ids ≠ []) :
    b.selectDeadLocked ids = ids.filter (· ∈ b.dead) := by
  rw [selectDeadLocked, if_neg (by simpa using hids)]
  exact List.filter_congr fun x _ ↦ List.elem_eq_mem x b.dead

/-- What an open broker returns for a list of IDs: the number of mentions of dead jobs. -/
theorem count_retryDead (h : Located b) (hopen : b.closed = false) (hids : ids ≠ []) :
    (b.retryDead ids).1 = .ok (ids.filter (· ∈ b.dead)).length := by
  have hcount := count_retryLoop (b.selectDeadLocked ids) 0 b fun x hx ↦
    h.of_mem_dead (mem_selectDeadLocked.1 hx).1
  rw [retryDead, if_neg (by simp [hopen])]
  rw [zero_add] at hcount
  show Except.ok (retryLoop (b.selectDeadLocked ids) 0 b).1 = _
  rw [hcount, selectDeadLocked_eq hids]

theorem card_named : (ids.toFinset ∩ b.dead.toFinset).card =
    (ids.filter (· ∈ b.dead)).toFinset.card := by
  congr 1
  ext x
  simp

/-- **`RetryDead` with a list of IDs replays each dead job it names once exactly if it names none
twice.** The IDs of unknown jobs and of jobs that are not dead may stand in the list as often as
they like. -/
theorem retryDead_exact_iff {h : List (Turn Broker Call)}
    (hrun : machine.Run (fun _ b c ↦ Careful b c.op) h b) (hids : ids ≠ []) :
    ReplaysOnce b ids ↔ b.closed = false ∧ (ids.filter (· ∈ b.dead)).Nodup := by
  have hloc := located_of_careful hrun
  constructor
  · intro hexact
    have hopen : b.closed = false := by
      by_contra hclosed
      have hcount := hexact.count
      rw [retryDead, if_pos (by simpa using hclosed)] at hcount
      cases hcount
    refine ⟨hopen, ?_⟩
    have hcard := hexact.count
    rw [count_retryDead hloc hopen hids, Except.ok.injEq, card_named] at hcard
    exact Multiset.toFinset_card_eq_card_iff_nodup.1 hcard.symm
  · rintro ⟨hopen, hnodup⟩
    have hjobs : ∀ x ∈ ids.filter (· ∈ b.dead), ∃ j, b.jobs.lookup x = some j := fun x hx ↦
      hloc.of_mem_dead (by simpa using (List.mem_filter.1 hx).2)
    have hnamed : named b ids = ids.filter (· ∈ b.dead) := Batch.eraseDups_of_nodup hnodup
    have hreplayed : Replayed (named b ids) b (b.retryDead ids).2 := by
      rw [hnamed, retryDead, if_neg (by simp [hopen]), selectDeadLocked_eq hids]
      exact replayed_retryLoop _ 0 b hnodup hloc.dead_nodup hjobs
    refine ⟨?_, fun x hx ↦ ?_, hreplayed⟩
    · rw [count_retryDead hloc hopen hids, card_named, List.toFinset_card_of_nodup hnodup]
    · have hmem : x ∈ ids.filter (· ∈ b.dead) := hnamed ▸ hx
      obtain ⟨j, hj⟩ := hjobs x hmem
      have hdead : x ∈ b.dead := by simpa using (List.mem_filter.1 hmem).2
      refine ⟨j, hj, ?_, ?_, ?_⟩
      · rw [hreplayed.jobs x, if_pos hx, hj, Option.map_some]
      · rw [hreplayed.pending, List.count_append, (hloc.of_dead hj hdead).2.1, zero_add,
          List.count_filter (by simp [queueOf_eq_some hj]), hnamed]
        exact List.count_eq_one_of_mem hnodup hmem
      · rw [hreplayed.dead]
        simp [hx]

/-- Two jobs are enqueued, claimed and killed. -/
def twoKilled : List Call :=
  [⟨0, .enqueue "a" (some (.plain "q" "t" 5))⟩, ⟨0, .enqueue "b" (some (.plain "q" "t" 5))⟩,
    ⟨1, .dequeue ⟨"w", ["q"], 10⟩⟩, ⟨1, .dequeue ⟨"w", ["q"], 10⟩⟩,
    ⟨2, .kill "w" "a" "bad"⟩, ⟨2, .kill "w" "b" "bad"⟩]

theorem run_twoKilled : machine.Run (fun _ b c ↦ Careful b c.op)
    (machine.play [] machine.init twoKilled).1 (machine.play [] machine.init twoKilled).2 :=
  .play twoKilled .start ⟨rfl, rfl, trivial, trivial, trivial, trivial, trivial⟩

/-- A list that names an unknown job twice and the two dead jobs once, the later one first. -/
theorem retryDead_exact_iff_twoKilled :
    ReplaysOnce (machine.play [] machine.init twoKilled).2 ["c", "b", "c", "a"] :=
  (retryDead_exact_iff run_twoKilled (by simp)).2 ⟨rfl, by decide⟩

/-- **A dead job that is named twice is queued twice**, and counted twice. -/
theorem replayed_twice : ∃ h b, machine.Run (fun _ b c ↦ Careful b c.op) h b ∧
    (b.retryDead ["a", "a"]).2.pending "q" = ["a", "a"] ∧ ¬ ReplaysOnce b ["a", "a"] := by
  refine ⟨_, _, run_twoKilled, rfl, fun hexact ↦ ?_⟩
  have hcount : (Except.ok 2 : Except Err ℕ) = .ok 1 := hexact.count
  cases hcount

end RetryDead

/-! ### Sweeps, exactly -/

section Maintenance

variable {b : Broker} {now : Time} {limit : ℤ} {queues : List String}

open Broker

/-- **A `Reap` acts on the right jobs and puts them in the right places**: there is a list of the
expired leases on the queues that are looked at, by deadline and ID, and the first of them that fit
the limit are reaped. -/
def ReapsExactly (b : Broker) (now : Time) (queues : List String) (limit : ℤ) : Prop :=
  ∃ l : List (Time ×ₗ String), l.SortedLT ∧
    (∀ t x, toLex (t, x) ∈ l ↔ b.active.lookup x = some t ∧ t ≤ now ∧
      ∃ j, b.jobs.lookup x = some j ∧ (queues = [] ∨ j.queue ∈ queues)) ∧
    (b.reap now queues limit).1 = .ok (min limit.toNat l.length) ∧
    Recovered (keysOf (l.take limit.toNat)) b (b.reap now queues limit).2

/-- The same for a `Promote` and the due members of the scheduled and retry sets. -/
def PromotesExactly (b : Broker) (now : Time) (limit : ℤ) : Prop :=
  ∃ l : List (Time ×ₗ String), l.SortedLT ∧
    (∀ t x, toLex (t, x) ∈ l ↔
      (b.scheduled.lookup x = some t ∨ b.retry.lookup x = some t) ∧ t ≤ now) ∧
    (b.promote now limit).1 = .ok (min limit.toNat l.length) ∧
    Promoted (keysOf (l.take limit.toNat)) b (b.promote now limit).2

theorem reapable_eq_true {x : String} : b.reapable queues x = true ↔
    ∃ j, b.jobs.lookup x = some j ∧ (queues = [] ∨ j.queue ∈ queues) := by
  rw [reapable]
  rcases b.jobs.lookup x with - | j
  · simp
  · simp

theorem reapsExactly (h : Located b) (hopen : b.closed = false) (now : Time)
    (queues : List String) (hlim : 1 ≤ limit) : ReapsExactly b now queues limit := by
  obtain ⟨hcount, hrec⟩ := recovered_reapLoop limit (b.expired now queues) 0 b
    (keysOf_due_nodup _ _ _) fun c hc ↦ by
      obtain ⟨j, hj, -⟩ := h.of_lease (mem_due.1 hc).1
      exact ⟨j, hj, h.keyed _ j hj⟩
  rw [Nat.cast_zero, sub_zero] at hcount hrec
  rw [zero_add, List.length_take] at hcount
  refine ⟨b.expired now queues, due_sortedLT _ _ _, fun t x ↦ ?_, ?_, ?_⟩
  · rw [expired, mem_due, reapable_eq_true]
    rfl
  · rw [reap, if_neg (by omega), if_neg (by simp [hopen])]
    exact congrArg Except.ok hcount
  · rw [reap, if_neg (by omega), if_neg (by simp [hopen])]
    exact hrec

/-- The due jobs are sorted by time and ID. -/
theorem dueJobs_sortedLT (hnodup : ((b.dueJobs now).map fun c ↦ (ofLex c.1).2).Nodup) :
    ((b.dueJobs now).map Prod.fst).SortedLT := by
  have hpairs : ((b.dueJobs now).map Prod.fst).Nodup :=
    .of_map (fun p : Time ×ₗ String ↦ (ofLex p).2) (by rwa [List.map_map])
  have hle : ((b.dueJobs now).map Prod.fst).Pairwise (· ≤ ·) :=
    List.pairwise_map.2 (List.pairwise_insertionSort _ _)
  exact (hle.imp₂ (fun _ _ hle hne ↦ lt_of_le_of_ne hle hne) hpairs).sortedLT

theorem promotesExactly (h : Located b) (hopen : b.closed = false) (now : Time)
    (hlim : 1 ≤ limit) : PromotesExactly b now limit := by
  have hnodup := h.dueJobs_nodup now
  obtain ⟨hcount, hprom⟩ := promoted_promoteLoop limit (b.dueJobs now) 0 b hnodup fun c hc ↦ by
    have hin := (mem_dueJobs.1 hc).1
    obtain ⟨j, hj⟩ := h.of_waitSet hin
    refine ⟨⟨j, hj⟩, fun set hset ↦ ?_⟩
    exact h.other_waitSet hin hset
  rw [Nat.cast_zero, sub_zero] at hcount hprom
  rw [zero_add, List.length_take] at hcount
  refine ⟨(b.dueJobs now).map Prod.fst, dueJobs_sortedLT hnodup, fun t x ↦ ?_, ?_, ?_⟩
  · rw [List.mem_map]
    constructor
    · rintro ⟨⟨p, set⟩, hc, rfl⟩
      obtain ⟨hin, hle⟩ := mem_dueJobs.1 hc
      cases set with
      | scheduled => exact ⟨.inl hin, hle⟩
      | retry => exact ⟨.inr hin, hle⟩
    · rintro ⟨hin | hin, hle⟩
      · exact ⟨(toLex (t, x), .scheduled), mem_dueJobs.2 ⟨hin, hle⟩, rfl⟩
      · exact ⟨(toLex (t, x), .retry), mem_dueJobs.2 ⟨hin, hle⟩, rfl⟩
  · rw [promote, if_neg (by omega), if_neg (by simp [hopen]), List.length_map]
    exact congrArg Except.ok hcount
  · rw [promote, if_neg (by omega), if_neg (by simp [hopen]), ← List.map_take, keysOf,
      List.map_map]
    exact hprom

/-- **Batched maintenance is exact** in every run of careful calls. -/
theorem maintenance_exact {h : List (Turn Broker Call)}
    (hrun : machine.Run (fun _ b c ↦ Careful b c.op) h b) (hopen : b.closed = false) (now : Time)
    (hlim : 1 ≤ limit) (queues : List String) :
    ReapsExactly b now queues limit ∧ PromotesExactly b now limit :=
  have hloc := located_of_careful hrun
  ⟨reapsExactly hloc hopen now queues hlim, promotesExactly hloc hopen now hlim⟩

/-- Two jobs are claimed, one of them for the last time, while a third waits for its time. -/
def twoClaimed : List Call :=
  [⟨0, .enqueue "a" (some (.plain "q" "t" 1))⟩, ⟨0, .enqueue "b" (some (.plain "q" "t" 5))⟩,
    ⟨0, .enqueue "c" (some { Job.plain "q" "t" 5 with runAt := 15 })⟩,
    ⟨1, .dequeue ⟨"w", ["q"], 10⟩⟩, ⟨1, .dequeue ⟨"w", ["q"], 10⟩⟩]

theorem maintenance_exact_twoClaimed :
    ReapsExactly (machine.play [] machine.init twoClaimed).2 20 [] 2 ∧
      PromotesExactly (machine.play [] machine.init twoClaimed).2 20 2 :=
  maintenance_exact (.play twoClaimed .start ⟨rfl, rfl, rfl, trivial, trivial, trivial⟩) rfl 20
    (by decide) []

/-- Every job that is enqueued gets an ID under which none was stored before. -/
def FreshIDs (h : List (Turn Broker Call)) (_ : Broker) (c : Call) : Prop :=
  ∀ newID j, c.op = .enqueue newID (some j) → ∀ t ∈ h, ∀ j', reply t = .stored j' →
    j'.id ≠ (j.assigned newID).id

/-- A dead job is replayed twice by one call. One of the two claims ends in a kill, the other in a
retry, and the job is purged while it waits. -/
def replayedAndPurged : List Call :=
  [⟨0, .enqueue "a" (some (.plain "q" "t" 5))⟩, ⟨1, .dequeue ⟨"w", ["q"], 10⟩⟩,
    ⟨2, .kill "w" "a" "bad"⟩, ⟨3, .retryDead ["a", "a"]⟩, ⟨4, .dequeue ⟨"v", ["q"], 10⟩⟩,
    ⟨5, .kill "v" "a" "bad"⟩, ⟨6, .dequeue ⟨"w", ["q"], 10⟩⟩, ⟨7, .nack "w" "a" 20 "late"⟩,
    ⟨8, .purgeDead []⟩]

/-- **The retry set can mention a job that is gone**, and `Promote` does not count it. -/
theorem promote_drops_dangling : ∃ h b, machine.Run FreshIDs h b ∧ b.closed = false ∧
    ¬ PromotesExactly b 20 1 := by
  have hrun : machine.Run FreshIDs _ _ := .play replayedAndPurged .start
    ⟨by simp [FreshIDs], by simp [FreshIDs], by simp [FreshIDs], by simp [FreshIDs],
      by simp [FreshIDs], by simp [FreshIDs], by simp [FreshIDs], by simp [FreshIDs],
      by simp [FreshIDs], trivial⟩
  refine ⟨_, _, hrun, rfl, ?_⟩
  rintro ⟨l, -, hmem, hcount, -⟩
  have hin : toLex ((20 : Time), "a") ∈ l := (hmem 20 "a").2 ⟨.inr rfl, le_rfl⟩
  have hzero : 0 = min 1 l.length := Except.ok.inj hcount
  have hpos := List.length_pos_of_mem hin
  omega

end Maintenance

end TaskQueue.Memory
