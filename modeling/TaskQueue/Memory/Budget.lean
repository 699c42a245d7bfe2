import TaskQueue.Memory.Location

/-!
# The attempt budget of the in-memory broker

`MaxAttempts` is to be the number of claims a job gets before `Nack` or `Reap` dead-letters it,
counted from its `Enqueue` or from its latest replay. Each claim adds one to `Attempt`, and the job
is dead-lettered when `Attempt` has reached `MaxAttempts`. So what counts is **where `Attempt`
starts**: `RetryDead` starts it at 0, but `Enqueue` stores the number the caller left in the
envelope. A job that starts at `a` is good for `max 1 (MaxAttempts - a)` claims (`Budget`, for any
history of the lifecycle automaton), which is `MaxAttempts` only if `a` is 0, or if there is only
one attempt and `a` is not negative. A dead job that is read back and submitted again is therefore
dead-lettered at its first failure.

`Attempt` is an `int` of Go. If it starts below the largest one, it is never counted up past it
(`Life.Budget.attempt_le`), so that it is the integer it is taken for here; the largest one wraps at
the first claim.

Turns of a run are read as events of the automaton by `claimsSince_eq`.
-/

namespace TaskQueue

open Keyed

/-! ### Histories -/

namespace Life

variable {spent : ℤ → ℤ → Bool} {evs past es : List Event} {e : Event} {l l' : Life}
  {o o' : Option Life}

/-- The claims since the latest enqueue or replay. -/
def claimsSince (evs : List Event) : ℕ :=
  (evs.reverse.takeWhile fun e ↦ !e.isReset).countP Event.isClaim

/-- The attempt number an event starts a job with. -/
def startedAt : Event → ℤ
  | .enqueued l => l.attempt
  | _ => 0

/-- The attempt number the job started with at its latest enqueue or replay. -/
def startOf (evs : List Event) : ℤ := (evs.reverse.find? Event.isReset).elim 0 startedAt

theorem claimsSince_reset (hreset : e.isReset = true) : claimsSince (past ++ [e]) = 0 := by
  simp [claimsSince, hreset]

theorem startOf_reset (hreset : e.isReset = true) : startOf (past ++ [e]) = startedAt e := by
  simp [startOf, hreset]

/-- Events that do not start the job afresh add their claims. -/
theorem claimsSince_append (hes : ∀ e ∈ es, e.isReset = false) :
    claimsSince (past ++ es) = claimsSince past + es.countP Event.isClaim := by
  have hall : ∀ e ∈ es.reverse, (!e.isReset) = true := fun e he ↦ by
    simp [hes e (List.mem_reverse.1 he)]
  rw [claimsSince, List.reverse_append, List.takeWhile_append_of_pos hall, List.countP_append,
    List.countP_reverse, Nat.add_comm]
  rfl

theorem startOf_append (hes : ∀ e ∈ es, e.isReset = false) :
    startOf (past ++ es) = startOf past := by
  have hnone : es.reverse.find? Event.isReset = none := by
    refine List.find?_eq_none.2 fun e he ↦ ?_
    simp [hes e (List.mem_reverse.1 he)]
  rw [startOf, List.reverse_append, List.find?_append, hnone]
  rfl

/-- The number of claims a job is good for that starts with the attempt number `start`. -/
def allowance (maxAttempts start : ℤ) : ℤ := max 1 (maxAttempts - start)

/-- **The budget of a job**: `Attempt` counts on from where it started, and while the job waits for
another claim it has one left. -/
structure Budget (evs : List Event) (l : Life) : Prop where
  attempt_eq : l.attempt = startOf evs + claimsSince evs
  claims_le : (claimsSince evs : ℤ) ≤ allowance l.maxAttempts (startOf evs)
  waiting : l.phase.isWaiting = true → claimsSince evs = 0 ∨ l.attempt < l.maxAttempts
  leased : l.phase.isLeased = true → 0 < claimsSince evs
  maxAttempts_eq : ∀ l₀, .enqueued l₀ ∈ evs → l.maxAttempts = l₀.maxAttempts
  start_eq : startOf evs = 0 ∨ ∀ l₀, .enqueued l₀ ∈ evs → startOf evs = l₀.attempt

theorem budget_enqueued (hnew : l.IsNew) : Budget [.enqueued l] l := by
  have hclaims : claimsSince ([] ++ [.enqueued l]) = 0 := claimsSince_reset rfl
  have hstart : startOf ([] ++ [.enqueued l]) = l.attempt := startOf_reset rfl
  rw [List.nil_append] at hclaims hstart
  have hself : ∀ l₀, Event.enqueued l₀ ∈ [Event.enqueued l] → l₀ = l := by simp
  refine ⟨by rw [hclaims, hstart]; simp, ?_, fun _ ↦ .inl hclaims, fun hleased ↦ ?_, ?_, .inr ?_⟩
  · rw [hclaims, allowance]
    omega
  · rcases hnew with h | ⟨_, h⟩ <;> rw [h] at hleased <;> cases hleased
  · rintro l₀ hl₀
    rw [hself l₀ hl₀]
  · rintro l₀ hl₀
    rw [hself l₀ hl₀, hstart]

/-- What is left to check after an event that does not start the job afresh. -/
theorem Budget.of_counters (hb : Budget past l) (hreset : e.isReset = false)
    (hmax : l'.maxAttempts = l.maxAttempts)
    (hatt : l'.attempt = l.attempt + if e.isClaim then 1 else 0)
    (hclaim : e.isClaim = true → l.phase.isWaiting = true)
    (hwait : l'.phase.isWaiting = true → claimsSince (past ++ [e]) = 0 ∨
      l'.attempt < l'.maxAttempts)
    (hlease : l'.phase.isLeased = true → e.isClaim = true ∨ l.phase.isLeased = true) :
    Budget (past ++ [e]) l' := by
  have hes : ∀ e' ∈ [e], e'.isReset = false := by simpa using hreset
  have hclaims : claimsSince (past ++ [e]) = claimsSince past + if e.isClaim then 1 else 0 := by
    rw [claimsSince_append hes, List.countP_singleton]
  have hstart : startOf (past ++ [e]) = startOf past := startOf_append hes
  have hpast : ∀ l₀, Event.enqueued l₀ ∈ past ++ [e] → .enqueued l₀ ∈ past := by
    refine fun l₀ hl₀ ↦ (List.mem_append.1 hl₀).resolve_right fun hmem ↦ ?_
    rw [← List.mem_singleton.1 hmem] at hreset
    cases hreset
  have hatt₀ := hb.attempt_eq
  have hle := hb.claims_le
  rw [allowance] at hle
  refine ⟨?_, ?_, hwait, fun h ↦ ?_, fun l₀ hl₀ ↦ ?_, ?_⟩
  · rw [hatt, hstart, hclaims, hatt₀]
    split_ifs <;> push_cast <;> omega
  · rw [hclaims, hstart, allowance, hmax]
    split_ifs with hc
    · rcases hb.waiting (hclaim hc) with hzero | hlt
      · rw [hzero]
        push_cast
        omega
      · push_cast
        omega
    · exact hle
  · rw [hclaims]
    rcases hlease h with hc | hl
    · rw [if_pos hc]
      omega
    · exact Nat.add_pos_left (hb.leased hl) _
  · rw [hmax]
    exact hb.maxAttempts_eq l₀ (hpast l₀ hl₀)
  · rw [hstart]
    exact hb.start_eq.imp_right fun hsame l₀ hl₀ ↦ hsame l₀ (hpast l₀ hl₀)

/-- One accepted event keeps the budget. -/
theorem Budget.step (hspent : Sound spent) (hb : Budget past l)
    (he : advance spent (some l) e = some o') : ∃ l', o' = some l' ∧ Budget (past ++ [e]) l' := by
  cases e with
  | enqueued l₀ =>
    obtain ⟨⟨⟩, -⟩ := advance_enqueued_iff.1 he
  | claimed w d =>
    obtain ⟨_, ⟨⟩, hphase, rfl⟩ := advance_claimed_iff.1 he
    exact ⟨_, rfl, hb.of_counters rfl rfl rfl (fun _ ↦ by rw [hphase]; rfl)
      (by simp [Phase.isWaiting]) fun _ ↦ .inl rfl⟩
  | acked w =>
    obtain ⟨_, _, ⟨⟩, -, rfl⟩ := advance_acked_iff.1 he
    exact ⟨_, rfl, hb.of_counters rfl rfl (by simp [Event.isClaim]) (by simp [Event.isClaim])
      (by simp [Phase.isWaiting]) (by simp [Phase.isLeased])⟩
  | nacked w r =>
    obtain ⟨_, _, ⟨⟩, -, rfl⟩ := advance_nacked_iff.1 he
    refine ⟨_, rfl, hb.of_counters rfl rfl (by simp [Event.isClaim]) (by simp [Event.isClaim])
      (fun h ↦ .inr (isWaiting_fallTo hspent h)) fun h ↦ ?_⟩
    rw [isLeased_fallTo rfl] at h
    cases h
  | killed w =>
    obtain ⟨_, _, ⟨⟩, -, rfl⟩ := advance_killed_iff.1 he
    exact ⟨_, rfl, hb.of_counters rfl rfl (by simp [Event.isClaim]) (by simp [Event.isClaim])
      (by simp [Phase.isWaiting]) (by simp [Phase.isLeased])⟩
  | extended w d =>
    obtain ⟨_, _, ⟨⟩, hphase, rfl⟩ := advance_extended_iff.1 he
    exact ⟨_, rfl, hb.of_counters rfl rfl (by simp [Event.isClaim]) (by simp [Event.isClaim])
      (by simp [Phase.isWaiting]) fun _ ↦ .inr (by rw [hphase]; rfl)⟩
  | reaped now =>
    obtain ⟨_, _, _, ⟨⟩, -, -, rfl⟩ := advance_reaped_iff.1 he
    refine ⟨_, rfl, hb.of_counters rfl rfl (by simp [Event.isClaim]) (by simp [Event.isClaim])
      (fun h ↦ .inr (isWaiting_fallTo hspent h)) fun h ↦ ?_⟩
    rw [isLeased_fallTo rfl] at h
    cases h
  | promoted now =>
    obtain ⟨_, t, ⟨⟩, hphase, -, rfl⟩ := advance_promoted_iff.1 he
    have hwait : l.phase.isWaiting = true := by rcases hphase with h | h <;> rw [h] <;> rfl
    have hkeep : claimsSince (past ++ [.promoted now]) = claimsSince past :=
      claimsSince_append (by simp [Event.isReset])
    refine ⟨_, rfl, hb.of_counters rfl rfl (by simp [Event.isClaim]) (by simp [Event.isClaim])
      (fun _ ↦ ?_) (by simp [Phase.isLeased])⟩
    rw [hkeep]
    exact hb.waiting hwait
  | replayed =>
    obtain ⟨_, ⟨⟩, -, rfl⟩ := advance_replayed_iff.1 he
    have hclaims : claimsSince (past ++ [.replayed]) = 0 := claimsSince_reset rfl
    have hstart : startOf (past ++ [.replayed]) = 0 := startOf_reset rfl
    refine ⟨_, rfl, by rw [hclaims, hstart]; rfl, ?_, fun _ ↦ .inl hclaims,
      by simp [Phase.isLeased], fun l₀ hl₀ ↦ ?_, .inl hstart⟩
    · rw [hclaims, allowance]
      omega
    · exact hb.maxAttempts_eq l₀ (by simpa using hl₀)
  | purged =>
    obtain ⟨_, ⟨⟩, -, rfl⟩ := advance_purged_iff.1 he
    exact ⟨_, rfl, hb.of_counters rfl rfl (by simp [Event.isClaim]) (by simp [Event.isClaim])
      (by simp [Phase.isWaiting]) (by simp [Phase.isLeased])⟩

/-- **The budget of a history.** -/
theorem budget_of_history (hspent : Sound spent)
    (hrun : evs.foldlM (advance spent) none = some (some l)) : Budget evs l := by
  have h := foldlM_invariant (δ := advance spent) (P := fun past o ↦ (o = none ∧ past = []) ∨
    ∃ l, o = some l ∧ Budget past l) (.inl ⟨rfl, rfl⟩) ?_ hrun
  · obtain ⟨⟨⟩, -⟩ | ⟨_, ⟨⟩, hb⟩ := h
    exact hb
  · rintro past y e y' - (⟨rfl, rfl⟩ | ⟨l, rfl, hb⟩) he
    · obtain ⟨l, rfl, hnew, rfl⟩ := advance_none_iff.1 he
      exact .inr ⟨l, rfl, budget_enqueued hnew⟩
    · exact .inr (hb.step hspent he)

/-- How far `Attempt` is counted up. -/
theorem Budget.attempt_le (hb : Budget evs l) :
    startOf evs ≤ l.attempt ∧ l.attempt ≤ max (startOf evs + 1) l.maxAttempts := by
  have hatt := hb.attempt_eq
  have hle := hb.claims_le
  rw [allowance] at hle
  omega

/-- A lease that ends with the budget spent is the last one the job was good for. -/
theorem Budget.exact (hb : Budget evs l) (hleased : l.phase.isLeased = true)
    (hspent : l.maxAttempts ≤ l.attempt) :
    (claimsSince evs : ℤ) = allowance l.maxAttempts (startOf evs) := by
  have hatt := hb.attempt_eq
  have hle := hb.claims_le
  have hpos := hb.leased hleased
  rw [allowance] at hle ⊢
  omega

/-- **Death by a nack or a recovery**: the job was leased, and its budget was spent. -/
theorem spent_of_dead (hes : ∀ e ∈ es, (∃ w r, e = .nacked w r) ∨ ∃ now, e = .reaped now)
    (hrun : es.foldlM (advance spent) o = some (some l')) (hdead : l'.phase = .dead)
    (halive : ∀ l, o = some l → l.phase ≠ .dead) :
    ∃ l, o = some l ∧ l.phase.isLeased = true ∧ spent l.attempt l.maxAttempts = true := by
  rcases es with - | ⟨e, es⟩
  · exact absurd hdead (halive l' (by simpa using hrun))
  · rw [List.foldlM_cons] at hrun
    obtain ⟨o₁, he, hrun⟩ := Option.bind_eq_some_iff.1 hrun
    -- the lease ends with the first event, and no other of these events follows it
    obtain ⟨l, p, l₁, rfl, hleased, hp, rfl, hphase⟩ : ∃ l p l₁, o = some l ∧
        l.phase.isLeased = true ∧ (p ≠ .dead ∧ p.isLeased = false) ∧ o₁ = some l₁ ∧
        l₁.phase = l.fallTo spent p := by
      rcases hes e List.mem_cons_self with ⟨w, r, rfl⟩ | ⟨now, rfl⟩
      · obtain ⟨l, d, rfl, hphase, rfl⟩ := advance_nacked_iff.1 he
        exact ⟨l, .retry r, _, rfl, by rw [hphase]; rfl, ⟨by simp, rfl⟩, rfl, rfl⟩
      · obtain ⟨l, w, d, rfl, hphase, -, rfl⟩ := advance_reaped_iff.1 he
        exact ⟨l, .pending, _, rfl, by rw [hphase]; rfl, ⟨by simp, rfl⟩, rfl, rfl⟩
    refine ⟨l, rfl, hleased, ?_⟩
    rcases es with - | ⟨e', es⟩
    · obtain rfl : l₁ = l' := by simpa using hrun
      exact dead_of_fallTo hp.1 (hphase.symm.trans hdead)
    · have hfree : l₁.phase.isLeased = false := by rw [hphase, isLeased_fallTo hp.2]
      rw [List.foldlM_cons] at hrun
      obtain ⟨o₂, he', -⟩ := Option.bind_eq_some_iff.1 hrun
      rcases hes e' (by simp) with ⟨w, r, rfl⟩ | ⟨now, rfl⟩
      · obtain ⟨_, d, ⟨⟩, hactive, -⟩ := advance_nacked_iff.1 he'
        rw [hactive] at hfree
        cases hfree
      · obtain ⟨_, w, d, ⟨⟩, hactive, -⟩ := advance_reaped_iff.1 he'
        rw [hactive] at hfree
        cases hfree

end Life

/-! ### Runs -/

namespace Memory

open Broker

variable {b : Broker} {t : Turn Broker Call} {h : List (Turn Broker Call)} {id : String} {j : Job}

/-- The turn handed job `id` to a worker. -/
def claims (id : String) (t : Turn Broker Call) : Bool :=
  match reply t with
  | .claimed j => j.id == id
  | _ => false

/-- The turn started the count of claims of job `id` afresh: it enqueued or replayed it. -/
def starts (id : String) (t : Turn Broker Call) : Bool :=
  match t.input.op, reply t with
  | .enqueue _ _, .stored j => j.id == id
  | .retryDead ids, .count _ => decide (id ∈ t.before.selectDeadLocked ids)
  | _, _ => false

/-- The number of claims of job `id` since its enqueue or its latest replay. -/
def claimsSince (id : String) (h : List (Turn Broker Call)) : ℕ :=
  (h.takeWhile fun t ↦ !starts id t).countP (claims id)

/-- The attempt number `Enqueue` stored; a replay starts at 0. -/
def storedAttempt (t : Turn Broker Call) : ℤ :=
  match reply t with
  | .stored j => j.attempt
  | _ => 0

/-- The attempt number job `id` started with at its enqueue or its latest replay. -/
def startAttempt (id : String) (h : List (Turn Broker Call)) : ℤ :=
  (h.find? (starts id)).elim 0 storedAttempt

theorem starts_iff : starts id t = true ↔
    (∃ newID o j, t.input.op = .enqueue newID o ∧ reply t = .stored j ∧ j.id = id) ∨
      ∃ ids n, t.input.op = .retryDead ids ∧ reply t = .count n ∧
        id ∈ t.before.selectDeadLocked ids := by
  rw [starts]
  split
  · next newID o j hop hreply => simp [hop, hreply]
  · next ids n hop hreply => simp [hop, hreply]
  · next henq hretry =>
    simp only [Bool.false_eq_true, false_iff, not_or, not_exists, not_and]
    exact ⟨fun newID o j hop hreply _ ↦ henq newID o j hop hreply,
      fun ids n hop hreply _ ↦ hretry ids n hop hreply⟩

/-- What a turn that starts the job afresh does to it. -/
theorem eventsAt_of_starts (hloc : Located t.before) (hsafe : Safe t.before t.input.op)
    (hstarts : starts id t = true) :
    ∃ e : Event, e.isReset = true ∧ Life.startedAt e = storedAttempt t ∧
      eventsAt id (events t.before t.input) = [e] := by
  rcases starts_iff.1 hstarts with ⟨newID, o, j, hop, hreply, rfl⟩ | ⟨ids, n, hop, hreply, hid⟩
  · have hevents : events t.before t.input = [(j.id, .enqueued (newLife t.input.now j))] := by
      simp only [events, hop, show (exec t.before t.input).1 = .stored j from hreply]
    refine ⟨.enqueued (newLife t.input.now j), rfl, ?_, ?_⟩
    · rw [storedAttempt, hreply]
      rfl
    · rw [hevents, eventsAt_cons_self, eventsAt_nil]
  · have hevents : events t.before t.input =
        (t.before.selectDeadLocked ids).map fun i ↦ (i, .replayed) := by
      simp only [events, hop, show (exec t.before t.input).1 = .count n from hreply]
    rw [hop] at hsafe
    refine ⟨.replayed, rfl, ?_, ?_⟩
    · rw [storedAttempt, hreply]
      rfl
    · rw [hevents, eventsAt_map_const, List.count_eq_one_of_mem
        (hloc.selectDeadLocked_nodup hsafe) hid, List.replicate_one]

/-- What another turn does to it: nothing that starts it afresh, and a claim exactly if it handed
the job out. -/
theorem eventsAt_of_not_starts (hloc : Located t.before) (hstarts : starts id t = false) :
    (∀ e ∈ eventsAt id (events t.before t.input), e.isReset = false) ∧
      (eventsAt id (events t.before t.input)).countP Event.isClaim =
        if claims id t then 1 else 0 := by
  constructor
  · intro e he
    have hdid := mem_events_iff.1 (mem_eventsAt.1 he)
    have hno : ¬ starts id t = true := by simp [hstarts]
    cases e with
    | enqueued l =>
      obtain ⟨newID, o, j, hop, hreply, hid, -⟩ := hdid
      exact absurd (starts_iff.2 (.inl ⟨newID, o, j, hop, hreply, hid⟩)) hno
    | replayed =>
      obtain ⟨ids, n, hop, hreply, hid⟩ := hdid
      exact absurd (starts_iff.2 (.inr ⟨ids, n, hop, hreply, hid⟩)) hno
    | _ => rfl
  · by_cases hclaim : ∃ j, reply t = .claimed j
    · obtain ⟨j, hreply⟩ := hclaim
      obtain ⟨o, -, -, -, hop, -⟩ := claimed_of_exec hloc hreply
      have hevents : events t.before t.input = [(j.id, .claimed j.owner j.deadline)] := by
        simp only [events, hop, show (exec t.before t.input).1 = .claimed j from hreply]
      by_cases hid : j.id = id
      · subst hid
        rw [hevents, eventsAt_cons_self]
        simp [claims, hreply, Event.isClaim]
      · rw [hevents, eventsAt_cons_of_ne hid]
        simp [claims, hreply, hid]
    · have hno : claims id t = false := by
        rw [claims]
        split
        · next j hreply => exact absurd ⟨j, hreply⟩ hclaim
        · rfl
      rw [hno, if_neg Bool.false_ne_true, List.countP_eq_zero]
      intro e he hisClaim
      cases e with
      | claimed w d =>
        obtain ⟨o, j, -, hreply, -⟩ := mem_events_iff.1 (mem_eventsAt.1 he)
        exact hclaim ⟨j, hreply⟩
      | _ => cases hisClaim

/-- **The turns of a run and the events of its history** count the same. -/
theorem claimsSince_eq (hrun : machine.Run Fresh h b) (id : String) :
    claimsSince id h = Life.claimsSince (eventsAt id (history events h)) ∧
      startAttempt id h = Life.startOf (eventsAt id (history events h)) := by
  refine hrun.invariant (P := fun h _ ↦
    claimsSince id h = Life.claimsSince (eventsAt id (history events h)) ∧
      startAttempt id h = Life.startOf (eventsAt id (history events h))) ⟨rfl, rfl⟩ ?_
  intro h b c hrun ⟨hclaims, hstart⟩ hok
  have hloc := (lives_of_fresh hrun).1
  rw [history, eventsAt_append]
  cases hs : starts id ⟨b, c⟩ with
  | true =>
    obtain ⟨e, hreset, hat, hes⟩ :=
      eventsAt_of_starts (t := ⟨b, c⟩) hloc (hok.safe_of_run hrun) hs
    rw [show eventsAt id (events (Turn.mk b c).before (Turn.mk b c).input) = [e] from hes,
      Life.claimsSince_reset hreset, Life.startOf_reset hreset, hat]
    simp [claimsSince, startAttempt, hs]
  | false =>
    obtain ⟨hno, hcount⟩ := eventsAt_of_not_starts (t := ⟨b, c⟩) hloc hs
    rw [Life.claimsSince_append hno, Life.startOf_append hno, ← hclaims, ← hstart, hcount]
    constructor
    · rw [claimsSince, List.takeWhile_cons_of_pos (by simp [hs]), List.countP_cons]
      rfl
    · rw [startAttempt, List.find?_cons_of_neg (by simp [hs])]
      rfl

/-- The turn is a `Nack` of job `id` or a `Reap`, and it dead-letters the job. -/
structure DeadLetters (id : String) (t : Turn Broker Call) : Prop where
  op : (∃ w r reason, t.input.op = .nack w id r reason) ∨
    ∃ queues limit, t.input.op = .reap queues limit
  before : id ∉ t.before.dead
  after : id ∈ (machine.after t).dead

/-- The dead-letter list holds the jobs that are dead. -/
theorem mem_dead_iff (hloc : Located b) :
    id ∈ b.dead ↔ ∃ l, b.life id = some l ∧ l.phase = .dead := by
  rw [← List.count_pos_iff, (hloc.counts id).2.2.2.2, home]
  rcases hj : b.jobs.lookup id with - | j
  · simp [life_eq_none hj]
  · rw [life_eq_some hj, Option.bind_some]
    cases hstate : j.state <;> simp [place, phase, hstate]

/-- **A job is dead-lettered at the claim its start allows.** -/
theorem claimsSince_of_deadLetters (hrun : machine.Run Fresh (t :: h) b) (hdl : DeadLetters id t) :
    ∃ l : Life, Life.Budget (eventsAt id (history events h)) l ∧
      (claimsSince id h : ℤ) = Life.allowance l.maxAttempts (startAttempt id h) := by
  obtain ⟨hprev, -, rfl⟩ := hrun.of_cons
  obtain ⟨hloc, a, hfollows, hshown⟩ := lives_of_fresh hprev
  obtain ⟨hloc', a', hfollows', hshown'⟩ := lives_of_fresh hrun
  obtain ⟨l', hl', hdead⟩ := (mem_dead_iff hloc').1 hdl.after
  have hend : a' id = some l' := by
    have hview := hshown' id
    rw [hl'] at hview
    exact hview.eq_of_some
  have hfold : (eventsAt id (events t.before t.input)).foldlM (Life.advance spent) (a id) =
      some (some l') := by
    rw [← hend]
    exact hfollows.of_append hfollows' id
  have hes : ∀ e ∈ eventsAt id (events t.before t.input),
      (∃ w r, e = .nacked w r) ∨ ∃ now, e = .reaped now := by
    intro e he
    have hdid := mem_events_iff.1 (mem_eventsAt.1 he)
    rcases hdl.op with ⟨w, r, reason, hop⟩ | ⟨queues, limit, hop⟩ <;>
      cases e <;> simp_all [Did]
  have halive : ∀ l, a id = some l → l.phase ≠ .dead := by
    intro l hl hphase
    refine hdl.before ((mem_dead_iff hloc).2 ⟨l, ?_, hphase⟩)
    rcases hshown id with heq | ⟨-, l₁, hl₁, hdone⟩
    · rw [heq, hl]
    · rw [hl] at hl₁
      obtain rfl := Option.some.inj hl₁
      rw [hphase] at hdone
      cases hdone
  obtain ⟨l, hl, hleased, hspent⟩ := Life.spent_of_dead hes hfold hdead halive
  have hb : Life.Budget (eventsAt id (history events h)) l :=
    Life.budget_of_history (fun _ _ hle ↦ decide_eq_true hle) (hl ▸ hfollows id)
  obtain ⟨hclaims, hstart⟩ := claimsSince_eq hprev id
  refine ⟨l, hb, ?_⟩
  rw [hclaims, hstart]
  exact hb.exact hleased (of_decide_eq_true hspent)

/-- The job was enqueued as `j`. -/
def Accepted (h : List (Turn Broker Call)) (j : Job) : Prop :=
  ∃ t ∈ h, ∃ newID o, t.input.op = .enqueue newID o ∧ reply t = .stored j

/-- An accepted job has a positive number of attempts. -/
theorem Accepted.maxAttempts_pos (hj : Accepted h j) : 0 < j.maxAttempts := by
  obtain ⟨t, -, newID, o, hop, hreply⟩ := hj
  obtain ⟨j₀, -, rfl⟩ := stored_of_exec hop hreply
  show 0 < if j₀.maxAttempts ≤ 0 then defaultMaxAttempts else j₀.maxAttempts
  split_ifs with hnone
  · decide
  · exact not_le.1 hnone

theorem Accepted.mem_eventsAt (hj : Accepted h j) :
    ∃ l : Life, l.maxAttempts = j.maxAttempts ∧ l.attempt = j.attempt ∧
      .enqueued l ∈ eventsAt j.id (history events h) := by
  obtain ⟨t, ht, newID, o, hop, hreply⟩ := hj
  refine ⟨newLife t.input.now j, rfl, rfl, Keyed.mem_eventsAt.2 (mem_history.2 ⟨t, ht, ?_⟩)⟩
  exact mem_events_iff.2 ⟨newID, o, j, hop, hreply, rfl, rfl⟩

/-- An accepted job has a budget at every moment. -/
theorem budget_of_run (hrun : machine.Run Fresh h b) (hj : Accepted h j) :
    ∃ l, Life.Budget (eventsAt j.id (history events h)) l ∧
      ∀ l', b.life j.id = some l' → l' = l := by
  obtain ⟨-, a, hfollows, hshown⟩ := lives_of_fresh hrun
  obtain ⟨l₀, -, -, hmem⟩ := hj.mem_eventsAt
  obtain ⟨l, hl⟩ := Option.ne_none_iff_exists'.1 (Life.ne_none_of_mem (hfollows j.id) hmem)
  refine ⟨l, Life.budget_of_history (fun _ _ hle ↦ decide_eq_true hle) (hl ▸ hfollows j.id),
    fun l' hl' ↦ ?_⟩
  have hview := hshown j.id
  rw [hl'] at hview
  exact Option.some.inj (hview.eq_of_some.symm.trans hl)

/-- The numbers of the envelope are values of Go's `int`, and `Attempt` can be counted up. -/
structure CountsUp (j : Job) : Prop where
  attempt_ge : -2 ^ 63 ≤ j.attempt
  attempt_lt : j.attempt < 2 ^ 63 - 1
  maxAttempts_lt : j.maxAttempts < 2 ^ 63

/-- **`Attempt` does not wrap.** -/
theorem attempt_inRange (hrun : machine.Run Fresh h b) (hj : Accepted h j) (hint : CountsUp j)
    {j' : Job} (hj' : b.jobs.lookup j.id = some j') :
    -2 ^ 63 ≤ j'.attempt ∧ j'.attempt < 2 ^ 63 := by
  obtain ⟨l, hb, hlife⟩ := budget_of_run hrun hj
  obtain ⟨l₀, hmax, hatt, hmem⟩ := hj.mem_eventsAt
  obtain ⟨hge, hle⟩ := hb.attempt_le
  rw [hb.maxAttempts_eq l₀ hmem, hmax] at hle
  rw [← hlife _ (life_eq_some hj')] at hge hle
  have hint₀ := hint.attempt_ge
  have hint₁ := hint.attempt_lt
  have hint₂ := hint.maxAttempts_lt
  rcases hb.start_eq with hstart | hstart
  · rw [hstart] at hge hle
    simp only at hge hle
    omega
  · rw [hstart l₀ hmem, hatt] at hge hle
    simp only at hge hle
    omega

/-- The number of attempts the job started with leaves it all of its budget. -/
def FullBudget (h : List (Turn Broker Call)) (j : Job) : Prop :=
  startAttempt j.id h = 0 ∨ j.maxAttempts = 1 ∧ 0 ≤ startAttempt j.id h

theorem allowance_eq_iff (hpos : 0 < j.maxAttempts) :
    Life.allowance j.maxAttempts (startAttempt j.id h) = j.maxAttempts ↔ FullBudget h j := by
  rw [Life.allowance, FullBudget]
  omega

/-- **The attempt budget is exact if and only if the job starts with all of it.** For every job with
an `Attempt` below the largest `int`: it is an `int` for ever. Counted from its enqueue or its
latest replay, a job that starts with all of its budget is never claimed more than `MaxAttempts`
times. And a job that a `Nack` or a `Reap` dead-letters was claimed `MaxAttempts` times exactly if
it started so. -/
theorem attempt_budget_iff (hrun : machine.Run Fresh h b) (hj : Accepted h j)
    (hint : CountsUp j) :
    (∀ j', b.jobs.lookup j.id = some j' → -2 ^ 63 ≤ j'.attempt ∧ j'.attempt < 2 ^ 63) ∧
    (FullBudget h j → (claimsSince j.id h : ℤ) ≤ j.maxAttempts) ∧
      ∀ t older, h = t :: older → DeadLetters j.id t →
        ((claimsSince j.id older : ℤ) = j.maxAttempts ↔ FullBudget older j) := by
  refine ⟨fun j' ↦ attempt_inRange hrun hj hint, ?_, ?_⟩
  · intro hfull
    obtain ⟨l, hb, -⟩ := budget_of_run hrun hj
    obtain ⟨l₀, hmax, -, hmem⟩ := hj.mem_eventsAt
    have hle := hb.claims_le
    obtain ⟨hclaims, hstart⟩ := claimsSince_eq hrun j.id
    rw [← hclaims, ← hstart, hb.maxAttempts_eq l₀ hmem, hmax,
      (allowance_eq_iff hj.maxAttempts_pos).2 hfull] at hle
    exact hle
  · rintro t older rfl hdl
    have hj' : Accepted older j := by
      obtain ⟨t', ht', newID, o, hop, hreply⟩ := hj
      rcases List.mem_cons.1 ht' with rfl | ht'
      · rcases hdl.op with ⟨w, r, reason, hop'⟩ | ⟨queues, limit, hop'⟩ <;> rw [hop] at hop' <;>
          cases hop'
      · exact ⟨t', ht', newID, o, hop, hreply⟩
    obtain ⟨l, hb, hclaims⟩ := claimsSince_of_deadLetters hrun hdl
    obtain ⟨l₀, hmax, -, hmem⟩ := hj'.mem_eventsAt
    rw [hclaims, hb.maxAttempts_eq l₀ hmem, hmax]
    exact allowance_eq_iff hj'.maxAttempts_pos

/-- A job with two attempts, of which the first fails and the second is under way. -/
def failedOnce : List Call :=
  [⟨0, .enqueue "a" (some (.plain "q" "t" 2))⟩, ⟨1, .dequeue ⟨"w", ["q"], 10⟩⟩,
    ⟨2, .nack "w" "a" 3 "late"⟩, ⟨3, .promote 1⟩, ⟨4, .dequeue ⟨"w", ["q"], 10⟩⟩]

theorem attempt_budget_iff_failedOnce : ∃ t older b, machine.Run Fresh (t :: older) b ∧
    DeadLetters "a" t ∧ (claimsSince "a" older : ℤ) = 2 := by
  have hrun : machine.Run Fresh _ _ := .step ⟨5, .nack "w" "a" 6 "late"⟩
    (.play failedOnce .start ⟨⟨by simp, by simp⟩, ⟨by simp, by simp⟩, ⟨by simp, by simp⟩,
      ⟨by simp, by simp⟩, ⟨by simp, by simp⟩, trivial⟩) ⟨by simp, by simp⟩
  have hdl : DeadLetters "a" ⟨(machine.play [] machine.init failedOnce).2,
      ⟨5, .nack "w" "a" 6 "late"⟩⟩ := ⟨.inl ⟨"w", 6, "late", rfl⟩, by decide, by decide⟩
  refine ⟨_, _, _, hrun, hdl, ((attempt_budget_iff (j := stamped 0 "a" (.plain "q" "t" 2)) hrun
    ⟨⟨new, ⟨0, .enqueue "a" (some (.plain "q" "t" 2))⟩⟩, ?_, "a", _, rfl, rfl⟩
    ⟨by decide, by decide, by decide⟩).2.2 _ _ rfl hdl).2 (.inl rfl)⟩
  exact List.mem_cons_of_mem _ (List.mem_of_getLast? rfl)

/-- The ID under which a turn stored a job. -/
def storedID (t : Turn Broker Call) : Option String :=
  match reply t with
  | .stored j => some j.id
  | _ => none

theorem Fresh.of_notMem {newID : String} {now : Time}
    (hid : (j.assigned newID).id ∉ h.filterMap storedID) :
    Fresh h b ⟨now, .enqueue newID (some j)⟩ := by
  refine ⟨?_, by simp⟩
  rintro _ _ ⟨⟩ t ht j' hreply heq
  exact hid (List.mem_filterMap.2 ⟨t, ht, by rw [storedID, hreply, ← heq]⟩)

/-- The job, dead, as it is read back and submitted again under a new ID, and claimed once. -/
def resubmitted : List Call :=
  failedOnce ++ [⟨5, .nack "w" "a" 6 "late"⟩,
    ⟨6, .enqueue "b" (some { Job.plain "q" "t" 2 with
      attempt := 2, state := .dead, lastErr := "late", startedAt := 4, deadline := 14 })⟩,
    ⟨7, .dequeue ⟨"w", ["q"], 10⟩⟩]

/-- **A job that is submitted again dies at its first claim**, although it has two attempts. -/
theorem resubmitted_dies_early : ∃ t older b j, machine.Run Fresh (t :: older) b ∧
    Accepted older j ∧ j.id = "b" ∧ j.maxAttempts = 2 ∧ DeadLetters "b" t ∧
    claimsSince "b" older = 1 := by
  have hrun : machine.Run Fresh _ _ := .step ⟨8, .nack "w" "b" 9 "late"⟩
    (.play resubmitted .start ⟨⟨by simp, by simp⟩, ⟨by simp, by simp⟩, ⟨by simp, by simp⟩,
      ⟨by simp, by simp⟩, ⟨by simp, by simp⟩, ⟨by simp, by simp⟩,
      .of_notMem (by decide), ⟨by simp, by simp⟩, trivial⟩) ⟨by simp, by simp⟩
  exact ⟨_, _, _, _, hrun, ⟨_, List.mem_cons_of_mem _ List.mem_cons_self, "b", _, rfl, rfl⟩,
    rfl, rfl, ⟨.inl ⟨"w", 9, "late", rfl⟩, by decide, by decide⟩, by decide⟩

end Memory

end TaskQueue
