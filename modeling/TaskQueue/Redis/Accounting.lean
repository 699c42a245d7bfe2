import Mathlib.Algebra.BigOperators.Group.List.Basic
import Mathlib.Algebra.Order.Ring.Nat
import TaskQueue.Transitions

/-!
# Every lease ends exactly once

Many workers reap and promote the same sets at once, and a late report can race a reap. Over every
interleaving of the scripts the books balance: a job has been claimed once more than its leases have
ended if it is leased now, and as often if it is not; and it has been made to wait once more than it
has been promoted exactly while it waits. So the replies of all `Reap` calls add up to the number of
leases that ended by expiry, and those of all `Promote` calls to the number of promotions.

What a turn did to a job is said here by its **operation, its reply and the state of the job before
and after it**; what the scripts do inside does not occur in the definitions. One turn moves a job
at most once (`Amounts`), so one turn changes each side of the balance by the same amount, and the
balance of a run is the sum over its turns.
-/

namespace TaskQueue

namespace Redis

open Keyed Store

/-! ### What a turn did to a job -/

section

variable (cfg : Config)

/-- The turn was an `Ack`, `Nack` or `Kill` of the job that succeeded. -/
def settles (t : Turn Store Call) (id : String) : Bool :=
  match t.input.op, reply cfg t with
  | .ack _ i, .done => i = id
  | .nack _ i _ _, .done => i = id
  | .kill _ i _, .done => i = id
  | _, _ => false

/-- The turn was a `Reap` that found the job active and recovered or dead-lettered it. -/
def recovers (t : Turn Store Call) (id : String) : Bool :=
  match t.input.op with
  | .reap _ _ =>
    decide (stateOf (seen cfg t.before t.input) id = .active) &&
      (decide (stateAfter cfg t.before t.input id = .pending) ||
        decide (stateAfter cfg t.before t.input id = .dead))
  | _ => false

/-- The job is in the active set of its queue. -/
def leased (s : Store) (id : String) : Bool :=
  (s.job id).any fun e ↦ ((s.active e.hash.queue).lookup id).isSome

/-- The job is in the delayed or the retry set. -/
def waiting (s : Store) (id : String) : Bool :=
  (s.delayed.lookup id).isSome || (s.retry.lookup id).isSome

/-- The turn stored the job, or was a `Nack` of it that succeeded, and left it in the delayed or the
retry set. -/
def entersWait (t : Turn Store Call) (id : String) : Bool :=
  match t.input.op, reply cfg t with
  | .enqueue _ _ _, .stored j => decide (j.id = id) && waiting ((machine cfg).after t) id
  | .nack _ i _ _, .done => decide (i = id) && waiting ((machine cfg).after t) id
  | _, _ => false

/-- The turn was a `Promote` that found the job scheduled or retrying and made it pending. -/
def promotes (t : Turn Store Call) (id : String) : Bool :=
  match t.input.op with
  | .promote _ =>
    (decide (stateOf (seen cfg t.before t.input) id = .scheduled) ||
      decide (stateOf (seen cfg t.before t.input) id = .retry)) &&
        decide (stateAfter cfg t.before t.input id = .pending)
  | _ => false

/-- What the turn returned, if it was a `Reap`. -/
def reapCount (t : Turn Store Call) : ℕ :=
  match t.input.op, reply cfg t with
  | .reap _ _, .count n => n
  | _, _ => 0

/-- What the turn returned, if it was a `Promote`. -/
def promoteCount (t : Turn Store Call) : ℕ :=
  match t.input.op, reply cfg t with
  | .promote _, .count n => n
  | _, _ => 0

/-- The IDs of the jobs that a run stored. -/
def jobIDs (h : List (Turn Store Call)) : List String :=
  h.filterMap fun t ↦
    match t.input.op, reply cfg t with
    | .enqueue _ _ _, .stored j => some j.id
    | _, _ => none

end

variable {cfg : Config} {s : Store} {c : Call} {h : List (Turn Store Call)} {t : Turn Store Call}
  {id : String}

/-! ### States -/

theorem leased_eq (hs : Located s) (id : String) :
    leased s id = decide (stateOf s id = .active) := by
  rw [leased, stateOf]
  rcases he : s.job id with - | e
  · rfl
  · rw [Option.any_some, Option.elim_some, Bool.eq_iff_iff, decide_eq_true_iff,
      (hs.counts id).2.1 e.hash.queue, home, he, Option.bind_some, placeOf_eq_some_iff]
    simp

theorem waiting_eq (hs : Located s) (id : String) :
    waiting s id = (decide (stateOf s id = .scheduled) || decide (stateOf s id = .retry)) := by
  have hset : ∀ set : Script.WaitSet, ((Script.waitSet s set).lookup id).isSome =
      decide (stateOf s id = waitState set) := by
    intro set
    rw [Bool.eq_iff_iff, decide_eq_true_iff, (hs.counts id).2.2.1 set, home, stateOf]
    rcases he : s.job id with - | e
    · cases set <;> simp [waitState]
    · rw [Option.bind_some, Option.elim_some, placeOf_eq_some_iff]
  exact congrArg₂ (· || ·) (hset .delayed) (hset .retry)

/-- Only completed hashes expire, so the script sees every other job in its state. -/
theorem stateOf_seen_iff (hs : Located s) {st : State} (hnone : st ≠ .none)
    (hdone : st ≠ .completed) : stateOf (seen cfg s c) id = st ↔ stateOf s id = st := by
  have hlive := hs.live cfg.visible c.now
  have hseen : Located (seen cfg s c) := hlive.1
  have hshown : Life.Shown (s.life id) ((seen cfg s c).life id) := hlive.2 id
  rw [← stateOf_life hs, ← stateOf_life hseen]
  rcases hshown with heq | ⟨hgone, l, hl, hphase⟩
  · rw [heq]
  · rw [hgone, hl, Life.stateOf, Life.stateOf, hphase]
    exact iff_of_false (Ne.symm hnone) (Ne.symm hdone)

/-- A job that is stored after a call and not completed is in the state the call left it in. -/
theorem stateAfter_iff {st : State} (hnone : st ≠ .none) (hdone : st ≠ .completed) :
    stateAfter cfg s c id = st ↔ stateOf (exec cfg s c).2 id = st := by
  rw [stateAfter, stateOf]
  rcases (exec cfg s c).2.job id with - | e
  · refine iff_of_false ?_ (Ne.symm hnone)
    dsimp only
    split_ifs
    · exact Ne.symm hdone
    · exact Ne.symm hnone
  · rfl

/-! ### The definitions read as events -/

theorem claimOf_iff : claimOf cfg t = some id ↔ ∃ e ∈ eventsAt id (events cfg t.before t.input),
    e.isClaim = true := by
  have hcount : (eventsAt id (events cfg t.before t.input)).countP Event.isClaim =
      if claimOf cfg t = some id then 1 else 0 := countP_isClaim_events t id
  rw [← List.countP_pos_iff, hcount]
  split_ifs with hclaim <;> simp [hclaim]

theorem settles_iff : settles cfg t id = true ↔
    ∃ e ∈ eventsAt id (events cfg t.before t.input), e.isSettlement = true := by
  constructor
  · intro hset
    unfold settles at hset
    split at hset
    · next w i hop hreply =>
      obtain rfl : i = id := of_decide_eq_true hset
      exact ⟨.acked w, mem_eventsAt.2 (mem_events_iff.2 ⟨hop, hreply⟩), rfl⟩
    · next w i r reason hop hreply =>
      obtain rfl : i = id := of_decide_eq_true hset
      exact ⟨.nacked w _, mem_eventsAt.2 (mem_events_iff.2 ⟨r, reason, hop, hreply, rfl⟩), rfl⟩
    · next w i reason hop hreply =>
      obtain rfl : i = id := of_decide_eq_true hset
      exact ⟨.killed w, mem_eventsAt.2 (mem_events_iff.2 ⟨reason, hop, hreply⟩), rfl⟩
    · cases hset
  · rintro ⟨e, hmem, hkind⟩
    have hdid := mem_events_iff.1 (mem_eventsAt.1 hmem)
    cases e with
    | acked w =>
      obtain ⟨hop, hreply⟩ := hdid
      simp [settles, hop, show reply cfg t = .done from hreply]
    | nacked w r =>
      obtain ⟨r', reason, hop, hreply, -⟩ := hdid
      simp [settles, hop, show reply cfg t = .done from hreply]
    | killed w =>
      obtain ⟨reason, hop, hreply⟩ := hdid
      simp [settles, hop, show reply cfg t = .done from hreply]
    | _ => cases hkind

theorem entersWait_iff : entersWait cfg t id = true ↔
    (∃ e ∈ eventsAt id (events cfg t.before t.input), e.isEntry = true) ∧
      waiting ((machine cfg).after t) id = true := by
  constructor
  · intro hwait
    unfold entersWait at hwait
    split at hwait
    · next newID wall o j hop hreply =>
      obtain ⟨hid, hafter⟩ := Bool.and_eq_true_iff.1 hwait
      have hdid : Did cfg t.before t.input id (.enqueued (newLife (jobHash t.input.now j))) :=
        ⟨newID, wall, o, j, hop, hreply, of_decide_eq_true hid, rfl⟩
      exact ⟨⟨_, mem_eventsAt.2 (mem_events_iff.2 hdid), rfl⟩, hafter⟩
    · next w i r reason hop hreply =>
      obtain ⟨hid, hafter⟩ := Bool.and_eq_true_iff.1 hwait
      obtain rfl : i = id := of_decide_eq_true hid
      have hdid : Did cfg t.before t.input i (.nacked w (msFromTime r)) :=
        ⟨r, reason, hop, hreply, rfl⟩
      exact ⟨⟨_, mem_eventsAt.2 (mem_events_iff.2 hdid), rfl⟩, hafter⟩
    · cases hwait
  · rintro ⟨⟨e, hmem, hkind⟩, hafter⟩
    have hdid := mem_events_iff.1 (mem_eventsAt.1 hmem)
    cases e with
    | enqueued l =>
      obtain ⟨newID, wall, o, j, hop, hreply, hid, -⟩ := hdid
      simp [entersWait, hop, show reply cfg t = .stored j from hreply, hid, hafter]
    | nacked w r =>
      obtain ⟨r', reason, hop, hreply, -⟩ := hdid
      simp [entersWait, hop, show reply cfg t = .done from hreply, hafter]
    | _ => cases hkind

/-- A turn that changes the state of a job does something to it. -/
theorem exists_event_of_ne (hs : Located s) (hsafe : Safe (seen cfg s c) c.op)
    (hne : stateAfter cfg s c id ≠ stateOf (seen cfg s c) id) : ∃ e, (id, e) ∈ events cfg s c := by
  by_contra hnone
  exact hne (stateAfter_of_renewals hs hsafe fun e he ↦ absurd ⟨e, he⟩ hnone)

/-- What moves a job takes it from the state the script saw to the state it left. -/
theorem states_of_move (hs : Located s) (hsafe : Safe (seen cfg s c) c.op) {e : Event}
    (hmem : (id, e) ∈ events cfg s c) (hmove : e.isRenewal = false) :
    eventsAt id (events cfg s c) = [e] ∧ ∃ o o', Life.advance spent o e = some o' ∧
      stateOf (seen cfg s c) id = Life.stateOf o ∧ stateAfter cfg s c id = Life.stateOf o' := by
  obtain ⟨n, hamounts, -⟩ := amounts_events hs hsafe
  have hseen : Located (seen cfg s c) := (hs.live cfg.visible c.now).1
  have hevs := hamounts.eventsAt_eq hmem hmove
  obtain ⟨o', hadv, hafter⟩ := stateAfter_of_move hs hsafe hevs
  exact ⟨hevs, _, o', hadv, (stateOf_life hseen id).symm, hafter⟩

theorem recovers_iff (hs : Located t.before)
    (hsafe : Safe (seen cfg t.before t.input) t.input.op) : recovers cfg t id = true ↔
      ∃ e ∈ eventsAt id (events cfg t.before t.input), e.isReap = true := by
  constructor
  · intro hrec
    unfold recovers at hrec
    split at hrec
    · next q limit hop =>
      simp only [Bool.and_eq_true, Bool.or_eq_true, decide_eq_true_eq] at hrec
      have hne : stateAfter cfg t.before t.input id ≠ stateOf (seen cfg t.before t.input) id := by
        rcases hrec.2 with h | h <;> rw [h, hrec.1] <;> decide
      obtain ⟨e, he⟩ := exists_event_of_ne hs hsafe hne
      refine ⟨e, mem_eventsAt.2 he, ?_⟩
      have hdid := mem_events_iff.1 he
      cases e with
      | reaped now => rfl
      | _ => simp [Did, hop] at hdid
    · cases hrec
  · rintro ⟨e, hmem, hkind⟩
    have hmem := mem_eventsAt.1 hmem
    cases e with
    | reaped now =>
      obtain ⟨q, limit, hop, -⟩ := mem_events_iff.1 hmem
      obtain ⟨-, o, o', hadv, hsrc, hdst⟩ := states_of_move hs hsafe hmem rfl
      obtain ⟨hfrom, hto⟩ := Life.states_of_advance hadv
      simp [recovers, hop, hsrc, hdst, hfrom, hto.symm]
    | _ => cases hkind

theorem promotes_iff (hs : Located t.before)
    (hsafe : Safe (seen cfg t.before t.input) t.input.op) : promotes cfg t id = true ↔
      ∃ e ∈ eventsAt id (events cfg t.before t.input), e.isPromotion = true := by
  constructor
  · intro hpro
    unfold promotes at hpro
    split at hpro
    · next limit hop =>
      simp only [Bool.and_eq_true, Bool.or_eq_true, decide_eq_true_eq] at hpro
      have hne : stateAfter cfg t.before t.input id ≠ stateOf (seen cfg t.before t.input) id := by
        rcases hpro.1 with h | h <;> rw [h, hpro.2] <;> decide
      obtain ⟨e, he⟩ := exists_event_of_ne hs hsafe hne
      refine ⟨e, mem_eventsAt.2 he, ?_⟩
      have hdid := mem_events_iff.1 he
      cases e with
      | promoted now => rfl
      | _ => simp [Did, hop] at hdid
    · cases hpro
  · rintro ⟨e, hmem, hkind⟩
    have hmem := mem_eventsAt.1 hmem
    cases e with
    | promoted now =>
      obtain ⟨limit, hop, -⟩ := mem_events_iff.1 hmem
      obtain ⟨-, o, o', hadv, hsrc, hdst⟩ := states_of_move hs hsafe hmem rfl
      obtain ⟨hfrom, hto⟩ := Life.states_of_advance hadv
      simp [promotes, hop, hsrc, hdst, hfrom, hto]
    | _ => cases hkind

/-! ### The balance of one turn -/

/-- **One turn keeps both balances.** -/
theorem balance_of_turn (hs : Located t.before)
    (hsafe : Safe (seen cfg t.before t.input) t.input.op) (id : String) :
    (decide (claimOf cfg t = some id)).toNat + (leased t.before id).toNat =
        (settles cfg t id).toNat + (recovers cfg t id).toNat +
          (leased ((machine cfg).after t) id).toNat ∧
      (entersWait cfg t id).toNat + (waiting t.before id).toNat =
        (promotes cfg t id).toNat + (waiting ((machine cfg).after t) id).toNat := by
  have hafter : Located ((machine cfg).after t) := (steps_exec hs hsafe).located
  -- everything in terms of the events about the job and its states before and after
  have hb : ∀ {st : State}, st ≠ .none → st ≠ .completed → decide (stateOf t.before id = st) =
      decide (stateOf (seen cfg t.before t.input) id = st) := fun hnone hdone ↦
    decide_eq_decide.2 (stateOf_seen_iff hs hnone hdone).symm
  have ha : ∀ {st : State}, st ≠ .none → st ≠ .completed →
      decide (stateOf ((machine cfg).after t) id = st) =
        decide (stateAfter cfg t.before t.input id = st) := fun hnone hdone ↦
    decide_eq_decide.2 (stateAfter_iff hnone hdone).symm
  have hclaim : decide (claimOf cfg t = some id) =
      (eventsAt id (events cfg t.before t.input)).any Event.isClaim := by
    rw [Bool.eq_iff_iff, decide_eq_true_iff, claimOf_iff, List.any_eq_true]
  have hsettle : settles cfg t id =
      (eventsAt id (events cfg t.before t.input)).any Event.isSettlement := by
    rw [Bool.eq_iff_iff, settles_iff, List.any_eq_true]
  have hreap : recovers cfg t id =
      (eventsAt id (events cfg t.before t.input)).any Event.isReap := by
    rw [Bool.eq_iff_iff, recovers_iff hs hsafe, List.any_eq_true]
  have hentry : entersWait cfg t id =
      ((eventsAt id (events cfg t.before t.input)).any Event.isEntry &&
        waiting ((machine cfg).after t) id) := by
    rw [Bool.eq_iff_iff, entersWait_iff, Bool.and_eq_true, List.any_eq_true]
  have hpromote : promotes cfg t id =
      (eventsAt id (events cfg t.before t.input)).any Event.isPromotion := by
    rw [Bool.eq_iff_iff, promotes_iff hs hsafe, List.any_eq_true]
  rw [hentry, hclaim, hsettle, hreap, hpromote, leased_eq hs, leased_eq hafter, waiting_eq hs,
    waiting_eq hafter, hb (by decide) (by decide), hb (by decide) (by decide),
    hb (by decide) (by decide), ha (by decide) (by decide), ha (by decide) (by decide),
    ha (by decide) (by decide)]
  by_cases hall : ∀ e ∈ eventsAt id (events cfg t.before t.input), e.isRenewal = true
  · -- a renewal is none of the events that are counted
    have hnone : ∀ p : Event → Bool, (∀ w d, p (.extended w d) = false) →
        (eventsAt id (events cfg t.before t.input)).any p = false := by
      intro p hp
      refine List.any_eq_false.2 fun e he ↦ ?_
      have hren := hall e he
      cases e with
      | extended w d => simp [hp]
      | _ => cases hren
    rw [hnone _ fun _ _ ↦ rfl, hnone _ fun _ _ ↦ rfl, hnone _ fun _ _ ↦ rfl,
      hnone _ fun _ _ ↦ rfl, hnone _ fun _ _ ↦ rfl,
      stateAfter_of_renewals hs hsafe fun e he ↦ hall e (mem_eventsAt.2 he)]
    simp
  · push Not at hall
    obtain ⟨e, hmem, he⟩ := hall
    replace he := Bool.eq_false_of_not_eq_true he
    obtain ⟨hevs, o, o', hadv, hsrc, hdst⟩ := states_of_move hs hsafe (mem_eventsAt.1 hmem) he
    have hstates := Life.states_of_advance hadv
    rw [hevs, hsrc, hdst]
    cases e with
    | enqueued l | nacked w r | reaped now =>
      obtain ⟨hfrom, hto | hto⟩ := hstates <;> rw [hfrom, hto] <;> exact ⟨rfl, rfl⟩
    | claimed w d | acked w | killed w | replayed | purged =>
      rw [hstates.1, hstates.2]
      exact ⟨rfl, rfl⟩
    | promoted now =>
      obtain ⟨hfrom | hfrom, hto⟩ := hstates <;> rw [hfrom, hto] <;> exact ⟨rfl, rfl⟩
    | extended w d => cases he

/-! ### The balance of a run -/

theorem balance_of_run (hrun : (machine cfg).Run (Fresh cfg) h s) (id : String) :
    claims cfg h id = h.countP (settles cfg · id) + h.countP (recovers cfg · id) +
        (leased s id).toNat ∧
      h.countP (entersWait cfg · id) =
        h.countP (promotes cfg · id) + (waiting s id).toNat := by
  refine hrun.invariant (P := fun h s ↦ claims cfg h id = h.countP (settles cfg · id) +
    h.countP (recovers cfg · id) + (leased s id).toNat ∧ h.countP (entersWait cfg · id) =
      h.countP (promotes cfg · id) + (waiting s id).toNat) ⟨rfl, rfl⟩ ?_
  intro h s c hrun hP hok
  obtain ⟨hlease, hwait⟩ := balance_of_turn (t := ⟨s, c⟩) (lives_of_fresh hrun).1
    (hok.safe_of_run hrun) id
  have hcons : ∀ p : Turn Store Call → Bool,
      (⟨s, c⟩ :: h : List (Turn Store Call)).countP p = h.countP p + (p ⟨s, c⟩).toNat := by
    intro p
    rw [List.countP_cons]
    rcases p ⟨s, c⟩ with - | - <;> rfl
  have hafter : (machine cfg).next s c = (machine cfg).after ⟨s, c⟩ := rfl
  rw [claims] at hP ⊢
  rw [hcons, hcons, hcons, hcons, hcons, hafter]
  dsimp only at hlease hwait
  omega

/-! ### What the replies add up to -/

theorem mem_jobIDs : id ∈ jobIDs cfg h ↔ Enqueued cfg h id := by
  rw [jobIDs, List.mem_filterMap]
  constructor
  · rintro ⟨t, ht, hid⟩
    split at hid
    · next newID wall o j hop hreply =>
      exact ⟨t, ht, newID, wall, o, j, hop, hreply, Option.some.inj hid⟩
    · cases hid
  · rintro ⟨t, ht, newID, wall, o, j, hop, hreply, hid⟩
    exact ⟨t, ht, by simp [hop, hreply, hid]⟩

theorem jobIDs_nodup (hrun : (machine cfg).Run (Fresh cfg) h s) : (jobIDs cfg h).Nodup := by
  refine hrun.invariant (P := fun h _ ↦ (jobIDs cfg h).Nodup) List.nodup_nil ?_
  intro h s c _ hP hok
  rw [jobIDs, List.filterMap_cons]
  split
  · exact hP
  · next id hid =>
    split at hid
    · next newID wall o j hop hreply =>
      obtain rfl := Option.some.inj hid
      refine List.nodup_cons.2 ⟨fun hmem ↦ ?_, hP⟩
      obtain ⟨t, ht, _, _, _, j', -, hreply', hid'⟩ := mem_jobIDs.1 hmem
      rw [reply, exec, show c.op = _ from hop] at hreply
      obtain ⟨j₀, st, -, rfl, rfl, -⟩ := stored_of_run hreply
      exact hok newID wall j₀ hop t ht j' hreply' hid'
    · cases hid

/-- Only jobs of the run are moved. -/
theorem mem_jobIDs_of_event (hrun : (machine cfg).Run (Fresh cfg) h s) (ht : t ∈ h) {e : Event}
    (he : (id, e) ∈ events cfg t.before t.input) : id ∈ jobIDs cfg h := by
  obtain ⟨-, a, hfollows, -⟩ := lives_of_fresh hrun
  have hmem : e ∈ eventsAt id (history (events cfg) h) :=
    mem_eventsAt.2 (mem_history.2 ⟨t, ht, he⟩)
  rw [mem_jobIDs, ← enqueued_iff]
  exact enqueued_of_ne_none hfollows (Life.ne_none_of_mem (hfollows id) hmem)

/-- **Counting twice.** If every turn's number counts the items it concerns, then the numbers of all
turns add up to how often each item was concerned. -/
theorem sum_eq_sum_countP {α τ : Type*} [DecidableEq α] {items : List α} (hitems : items.Nodup)
    {n : τ → ℕ} {p : τ → α → Bool} {turns : List τ}
    (hcount : ∀ t ∈ turns, ∃ l : List α, l.Nodup ∧ l.length = n t ∧ (∀ a ∈ l, a ∈ items) ∧
      ∀ a, a ∈ l ↔ p t a = true) :
    (turns.map n).sum = (items.map fun a ↦ turns.countP (p · a)).sum := by
  induction turns with
  | nil => simp
  | cons t turns ih =>
    obtain ⟨l, hl, hlen, hsub, hmem⟩ := hcount t List.mem_cons_self
    have hperm : l.Perm (items.filter (p t)) := by
      refine (List.perm_ext_iff_of_nodup hl (hitems.filter _)).2 fun a ↦ ?_
      rw [List.mem_filter, hmem]
      exact ⟨fun ha ↦ ⟨hsub a ((hmem a).2 ha), ha⟩, fun ha ↦ ha.2⟩
    have hturn : n t = (items.map fun a ↦ (p t a).toNat).sum := by
      rw [← hlen, hperm.length_eq, ← List.countP_eq_length_filter]
      clear hsub hmem hperm hcount hitems ih
      induction items with
      | nil => rfl
      | cons a items ih =>
        rw [List.countP_cons, List.map_cons, List.sum_cons, ih]
        rcases p t a with - | - <;> simp [add_comm]
    rw [List.map_cons, List.sum_cons, hturn, ih fun t' ht' ↦ hcount t' (List.mem_cons_of_mem _ ht'),
      ← List.sum_map_add]
    refine congrArg List.sum (List.map_congr_left fun a _ ↦ ?_)
    rw [List.countP_cons, add_comm]
    rcases p t a with - | - <;> rfl

/-- A `Reap` returns the number of leases it ended. -/
theorem reapCount_spec (hs : Located t.before)
    (hsafe : Safe (seen cfg t.before t.input) t.input.op) :
    ∃ ids : List String, ids.Nodup ∧ ids.length = reapCount cfg t ∧
      ∀ id, id ∈ ids ↔ recovers cfg t id = true := by
  have hseen : Located (seen cfg t.before t.input) := (hs.live cfg.visible t.input.now).1
  refine ⟨reapsOf cfg t, ?_, ?_, fun id ↦ ?_⟩
  · rw [reapsOf]
    split
    · exact reaped_nodup _ _ _ _
    · exact List.nodup_nil
  · rw [reapsOf, reapCount]
    split
    · next q limit hop =>
      simp only [← (steps_reapQueue hseen t.input.now q limit).1, reply, exec, run, hop,
        Prod.map_fst]
      rcases (reapQueue _ t.input.now q limit).1 with e | n <;> rfl
    · next hop =>
      split
      · next q limit n hop' _ => exact absurd hop' (hop q limit)
      · rfl
  · rw [recovers_iff hs hsafe, ← List.countP_pos_iff, countP_isReap_events]
    split_ifs with hmem <;> simp [hmem]

/-- The jobs the turn promoted, if it was a `Promote`. -/
def promotionsOf (cfg : Config) (t : Turn Store Call) : List String :=
  match t.input.op with
  | .promote limit => promoted (seen cfg t.before t.input) t.input.now limit
  | _ => []

/-- A `Promote` returns the number of jobs it promoted. -/
theorem promoteCount_spec (hs : Located t.before)
    (hsafe : Safe (seen cfg t.before t.input) t.input.op) :
    ∃ ids : List String, ids.Nodup ∧ ids.length = promoteCount cfg t ∧
      ∀ id, id ∈ ids ↔ promotes cfg t id = true := by
  have hseen : Located (seen cfg t.before t.input) := (hs.live cfg.visible t.input.now).1
  refine ⟨promotionsOf cfg t, ?_, ?_, fun id ↦ ?_⟩
  · rw [promotionsOf]
    split
    · exact promoted_nodup hseen _ _
    · exact List.nodup_nil
  · rw [promotionsOf, promoteCount]
    split
    · next limit hop =>
      simp only [← (steps_promote hseen t.input.now limit).1, reply, exec, run, hop, Prod.map_fst]
      rcases (promote _ t.input.now limit).1 with e | n <;> rfl
    · next hop =>
      split
      · next limit n hop' _ => exact absurd hop' (hop limit)
      · rfl
  · rw [promotes_iff hs hsafe, promotionsOf]
    constructor
    · split
      · next limit hop =>
        intro hid
        exact ⟨.promoted t.input.now, mem_eventsAt.2 (mem_events_iff.2 ⟨limit, hop, hid, rfl⟩), rfl⟩
      · exact fun hid ↦ absurd hid List.not_mem_nil
    · rintro ⟨e, hmem, hkind⟩
      cases e with
      | promoted now =>
        obtain ⟨limit, hop, hid, -⟩ := mem_events_iff.1 (mem_eventsAt.1 hmem)
        simp only [hop]
        exact hid
      | _ => cases hkind

/-- **Every lease ends exactly once.** In every interleaving of the scripts, a job was claimed as
often as its leases were settled or ended by expiry, and once more if it is leased; it was made to
wait as often as it was promoted, and once more if it is waiting. So what all `Reap` calls returned
adds up to the number of leases of the run's jobs that ended by expiry, and what all `Promote` calls
returned to the number of their promotions. -/
theorem leases_end_once (hrun : (machine cfg).Run (Fresh cfg) h s) :
    (∀ id, claims cfg h id = h.countP (settles cfg · id) + h.countP (recovers cfg · id) +
      (leased s id).toNat) ∧
    (∀ id, h.countP (entersWait cfg · id) =
      h.countP (promotes cfg · id) + (waiting s id).toNat) ∧
    (jobIDs cfg h).Nodup ∧
    (∀ t ∈ h, ∀ id, recovers cfg t id = true ∨ promotes cfg t id = true → id ∈ jobIDs cfg h) ∧
    (h.map (reapCount cfg)).sum =
      ((jobIDs cfg h).map fun id ↦ h.countP (recovers cfg · id)).sum ∧
    (h.map (promoteCount cfg)).sum =
      ((jobIDs cfg h).map fun id ↦ h.countP (promotes cfg · id)).sum := by
  have hnodup := jobIDs_nodup hrun
  have hturn : ∀ t ∈ h, Located t.before ∧ Safe (seen cfg t.before t.input) t.input.op := by
    intro t ht
    obtain ⟨older, hprev, hok⟩ := hrun.of_mem ht
    exact ⟨(lives_of_fresh hprev).1, hok.safe_of_run hprev⟩
  have hjobs : ∀ t ∈ h, ∀ id, recovers cfg t id = true ∨ promotes cfg t id = true →
      id ∈ jobIDs cfg h := by
    intro t ht id hmoved
    obtain ⟨hs, hsafe⟩ := hturn t ht
    rw [recovers_iff hs hsafe, promotes_iff hs hsafe] at hmoved
    rcases hmoved with ⟨e, he, -⟩ | ⟨e, he, -⟩
    · exact mem_jobIDs_of_event hrun ht (mem_eventsAt.1 he)
    · exact mem_jobIDs_of_event hrun ht (mem_eventsAt.1 he)
  refine ⟨fun id ↦ (balance_of_run hrun id).1, fun id ↦ (balance_of_run hrun id).2, hnodup, hjobs,
    sum_eq_sum_countP hnodup fun t ht ↦ ?_, sum_eq_sum_countP hnodup fun t ht ↦ ?_⟩
  · obtain ⟨ids, hids, hlen, hmem⟩ := reapCount_spec (hturn t ht).1 (hturn t ht).2
    exact ⟨ids, hids, hlen, fun id hid ↦ hjobs t ht id (.inl ((hmem id).1 hid)), hmem⟩
  · obtain ⟨ids, hids, hlen, hmem⟩ := promoteCount_spec (hturn t ht).1 (hturn t ht).2
    exact ⟨ids, hids, hlen, fun id hid ↦ hjobs t ht id (.inr ((hmem id).1 hid)), hmem⟩

/-- A job is claimed and its lease runs out; of two reapers one ends it, and the other finds nothing
left to do. -/
theorem leases_end_once_raced : ∃ h s, (machine .default).Run (Fresh .default) h s ∧
    h.map (reapCount .default) = [0, 1, 0, 0] ∧
    claims .default h "a" = h.countP (settles .default · "a") +
      h.countP (recovers .default · "a") + (leased s "a").toNat ∧
    h.countP (recovers .default · "a") = 1 ∧ leased s "a" = false := by
  have hrun : (machine .default).Run (Fresh .default) _ _ :=
    .step ⟨2, .reap "q" 10⟩ (.step ⟨2, .reap "q" 10⟩ (.step ⟨1, .dequeue ⟨"w", ["q"], millisecond⟩⟩
      (.step ⟨0, .enqueue "a" 0 (some (.plain "q" "t" 3))⟩ .start (by simp [Fresh]))
      (by simp [Fresh])) (by simp [Fresh])) (by simp [Fresh])
  exact ⟨_, _, hrun, by decide, (leases_end_once hrun).1 "a", by decide, by decide⟩

end Redis

end TaskQueue
