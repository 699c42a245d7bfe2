import Mathlib.Data.List.Count
import Mathlib.Algebra.Order.Ring.Int
import TaskQueue.Transition.Keyed
import TaskQueue.Job

/-!
# The life of one job

What a broker is for, said about a single job: an automaton over the events that can happen to it.
A name under which nothing was ever enqueued is `none`; from its enqueue on a job is a `Life`, its
attempt budget and the phase it is in, and it ends in the phase `done` when it is acked or purged.
`advance` is the transition function, and an event the contract does not allow in a phase is
rejected.

The containers of the two brokers, the order of their queues and the scripts do not occur here. Each
broker is connected to this automaton by a theorem saying that its calls, read as events, are
accepted for every job; everything below is then a fact about both.

`spent attempt maxAttempts` is the broker's own test for an exhausted budget, a parameter because
the two brokers compute it differently.

## What is proved about a history

* `leased_of_quiet`: while the holder stays quiet, nobody else can end its lease before the
  deadline.
* `promoted_of_delayed`, `not_promoted_of_ready`: a wait ends with one promotion, not before its
  time.
* `attempt_eq_iff`: a lease that is still held under the same attempt number was not interrupted.
* `Tally`: the counters are exactly the numbers of claims and recoveries, and a job dies only by a
  kill or with its budget spent.
-/

namespace TaskQueue

/-- Where a job is; `done` once it was acked or purged. -/
inductive Phase
  | pending
  | active (owner : String) (deadline : ℤ)
  | scheduled (due : ℤ)
  | retry (due : ℤ)
  | dead
  | done
  deriving DecidableEq

/-- The job waits to be claimed, now or later. -/
def Phase.isWaiting : Phase → Bool
  | .pending | .scheduled _ | .retry _ => true
  | _ => false

/-- The job waits for a time to come. -/
def Phase.isDelayed : Phase → Bool
  | .scheduled _ | .retry _ => true
  | _ => false

/-- A worker holds a lease on the job. -/
def Phase.isLeased : Phase → Bool
  | .active _ _ => true
  | _ => false

/-- A job: its queue, its attempt budget and its phase. -/
structure Life where
  queue : String
  maxAttempts : ℤ
  attempt : ℤ
  recoveries : ℤ
  phase : Phase
  deriving DecidableEq

/-- What can happen to a job. -/
inductive Event
  | enqueued (l : Life)
  | claimed (worker : String) (deadline : ℤ)
  | acked (worker : String)
  | nacked (worker : String) (retryAt : ℤ)
  | killed (worker : String)
  | extended (worker : String) (deadline : ℤ)
  | reaped (now : ℤ)
  | promoted (now : ℤ)
  | replayed
  | purged
  deriving DecidableEq

/-- The events by which worker `w` gives a job up. -/
def Event.Settles (w : String) : Event → Prop
  | .acked o => o = w
  | .nacked o _ => o = w
  | .killed o => o = w
  | _ => False

/-- Whether the event is a claim. -/
def Event.isClaim : Event → Bool
  | .claimed _ _ => true
  | _ => false

/-- Whether the event is a recovery. -/
def Event.isReap : Event → Bool
  | .reaped _ => true
  | _ => false

/-- Whether the event starts a job afresh, with a counter that does not continue the old one. -/
def Event.isReset : Event → Bool
  | .enqueued _ => true
  | .replayed => true
  | _ => false

/-- Whether the event ends a lease without success. -/
def Event.isFailure : Event → Bool
  | .nacked _ _ => true
  | .killed _ => true
  | .reaped _ => true
  | _ => false

/-- Whether the event ends a lease by its holder's report. -/
def Event.isSettlement : Event → Bool
  | .acked _ | .nacked _ _ | .killed _ => true
  | _ => false

/-- Whether the event is one that can make a job wait. -/
def Event.isEntry : Event → Bool
  | .enqueued _ | .nacked _ _ => true
  | _ => false

/-- Whether the event is a promotion. -/
def Event.isPromotion : Event → Bool
  | .promoted _ => true
  | _ => false

/-- Whether the event ends the job. -/
def Event.isEnd : Event → Bool
  | .acked _ => true
  | .purged => true
  | _ => false

namespace Life

/-- The waiting phases a job can be enqueued into. -/
def IsNew (l : Life) : Prop := l.phase = .pending ∨ ∃ due, l.phase = .scheduled due

instance (l : Life) : Decidable l.IsNew :=
  match h : l.phase with
  | .pending => .isTrue (.inl h)
  | .scheduled due => .isTrue (.inr ⟨due, h⟩)
  | .active _ _ => .isFalse (by rintro (h' | ⟨_, h'⟩) <;> rw [h] at h' <;> cases h')
  | .retry _ => .isFalse (by rintro (h' | ⟨_, h'⟩) <;> rw [h] at h' <;> cases h')
  | .dead => .isFalse (by rintro (h' | ⟨_, h'⟩) <;> rw [h] at h' <;> cases h')
  | .done => .isFalse (by rintro (h' | ⟨_, h'⟩) <;> rw [h] at h' <;> cases h')

variable (spent : ℤ → ℤ → Bool)

/-- The phase a job falls into when a lease on it ends without success: dead if its budget is spent,
and `other` if not. -/
def fallTo (l : Life) (other : Phase) : Phase :=
  if spent l.attempt l.maxAttempts then .dead else other

/-- The automaton. The outer `none` rejects the event. -/
def advance : Option Life → Event → Option (Option Life)
  | none, .enqueued l => if l.IsNew then some (some l) else none
  | some l, .claimed w d =>
    if l.phase = .pending then
      some (some { l with attempt := l.attempt + 1, phase := .active w d })
    else none
  | some l, .acked w =>
    match l.phase with
    | .active o _ => if o = w then some (some { l with phase := .done }) else none
    | _ => none
  | some l, .nacked w r =>
    match l.phase with
    | .active o _ =>
      if o = w then some (some { l with phase := l.fallTo spent (.retry r) }) else none
    | _ => none
  | some l, .killed w =>
    match l.phase with
    | .active o _ => if o = w then some (some { l with phase := .dead }) else none
    | _ => none
  | some l, .extended w d =>
    match l.phase with
    | .active o _ => if o = w then some (some { l with phase := .active w d }) else none
    | _ => none
  | some l, .reaped now =>
    match l.phase with
    | .active _ d =>
      if d ≤ now then
        some (some { l with recoveries := l.recoveries + 1, phase := l.fallTo spent .pending })
      else none
    | _ => none
  | some l, .promoted now =>
    match l.phase with
    | .scheduled t => if t ≤ now then some (some { l with phase := .pending }) else none
    | .retry t => if t ≤ now then some (some { l with phase := .pending }) else none
    | _ => none
  | some l, .replayed =>
    if l.phase = .dead then
      some (some { l with attempt := 0, recoveries := 0, phase := .pending })
    else none
  | some l, .purged => if l.phase = .dead then some (some { l with phase := .done }) else none
  | _, _ => none

/-! ### What each event requires and does -/

variable {spent} {o o' : Option Life} {w : String} {d now r : ℤ}

attribute [local simp] advance

theorem advance_enqueued_iff {l : Life} :
    advance spent o (.enqueued l) = some o' ↔ o = none ∧ l.IsNew ∧ o' = some l := by
  cases o with
  | none => by_cases hl : l.IsNew <;> simp [hl, eq_comm]
  | some _ => simp

theorem advance_claimed_iff : advance spent o (.claimed w d) = some o' ↔
    ∃ l, o = some l ∧ l.phase = .pending ∧
      o' = some { l with attempt := l.attempt + 1, phase := .active w d } := by
  cases o with
  | none => simp
  | some l => cases hl : l.phase <;> simp [hl, eq_comm]

theorem advance_acked_iff : advance spent o (.acked w) = some o' ↔
    ∃ l d, o = some l ∧ l.phase = .active w d ∧ o' = some { l with phase := .done } := by
  cases o with
  | none => simp
  | some l => cases hl : l.phase <;> simp [hl, eq_comm]

theorem advance_nacked_iff : advance spent o (.nacked w r) = some o' ↔
    ∃ l d, o = some l ∧ l.phase = .active w d ∧
      o' = some { l with phase := l.fallTo spent (.retry r) } := by
  cases o with
  | none => simp
  | some l => cases hl : l.phase <;> simp [hl, eq_comm]

theorem advance_killed_iff : advance spent o (.killed w) = some o' ↔
    ∃ l d, o = some l ∧ l.phase = .active w d ∧ o' = some { l with phase := .dead } := by
  cases o with
  | none => simp
  | some l => cases hl : l.phase <;> simp [hl, eq_comm]

theorem advance_extended_iff : advance spent o (.extended w d) = some o' ↔
    ∃ l d', o = some l ∧ l.phase = .active w d' ∧ o' = some { l with phase := .active w d } := by
  cases o with
  | none => simp
  | some l => cases hl : l.phase <;> simp [hl, eq_comm]

theorem advance_reaped_iff : advance spent o (.reaped now) = some o' ↔
    ∃ l w d, o = some l ∧ l.phase = .active w d ∧ d ≤ now ∧
      o' = some { l with
        recoveries := l.recoveries + 1, phase := l.fallTo spent .pending } := by
  cases o with
  | none => simp
  | some l => cases hl : l.phase <;> simp [hl, eq_comm]

theorem advance_promoted_iff : advance spent o (.promoted now) = some o' ↔
    ∃ l t, o = some l ∧ (l.phase = .scheduled t ∨ l.phase = .retry t) ∧ t ≤ now ∧
      o' = some { l with phase := .pending } := by
  cases o with
  | none => simp
  | some l => cases hl : l.phase <;> simp [hl, eq_comm]

theorem advance_replayed_iff : advance spent o .replayed = some o' ↔
    ∃ l, o = some l ∧ l.phase = .dead ∧
      o' = some { l with attempt := 0, recoveries := 0, phase := .pending } := by
  cases o with
  | none => simp
  | some l => cases hl : l.phase <;> simp [hl, eq_comm]

theorem advance_purged_iff : advance spent o .purged = some o' ↔
    ∃ l, o = some l ∧ l.phase = .dead ∧ o' = some { l with phase := .done } := by
  cases o with
  | none => simp
  | some l => cases hl : l.phase <;> simp [hl, eq_comm]

/-! ### Beginning and end -/

theorem fallTo_ne_done {l : Life} {p : Phase} (hp : p ≠ .done) : l.fallTo spent p ≠ .done := by
  unfold fallTo
  split
  · simp
  · exact hp

/-- Every accepted event leaves a life, and it is done exactly if the event ends it. -/
theorem advance_done_iff {e : Event} (he : advance spent o e = some o') :
    ∃ l', o' = some l' ∧ (l'.phase = .done ↔ e.isEnd = true) := by
  cases e with
  | enqueued l =>
    obtain ⟨-, hnew, rfl⟩ := advance_enqueued_iff.1 he
    refine ⟨l, rfl, ?_⟩
    rcases hnew with h | ⟨_, h⟩ <;> simp [h, Event.isEnd]
  | claimed w d =>
    obtain ⟨l, -, -, rfl⟩ := advance_claimed_iff.1 he
    exact ⟨_, rfl, by simp [Event.isEnd]⟩
  | acked w =>
    obtain ⟨l, _, -, -, rfl⟩ := advance_acked_iff.1 he
    exact ⟨_, rfl, by simp [Event.isEnd]⟩
  | nacked w r =>
    obtain ⟨l, _, -, -, rfl⟩ := advance_nacked_iff.1 he
    exact ⟨_, rfl, by simp [Event.isEnd, fallTo_ne_done]⟩
  | killed w =>
    obtain ⟨l, _, -, -, rfl⟩ := advance_killed_iff.1 he
    exact ⟨_, rfl, by simp [Event.isEnd]⟩
  | extended w d =>
    obtain ⟨l, _, -, -, rfl⟩ := advance_extended_iff.1 he
    exact ⟨_, rfl, by simp [Event.isEnd]⟩
  | reaped now =>
    obtain ⟨l, _, _, -, -, -, rfl⟩ := advance_reaped_iff.1 he
    exact ⟨_, rfl, by simp [Event.isEnd, fallTo_ne_done]⟩
  | promoted now =>
    obtain ⟨l, _, -, -, -, rfl⟩ := advance_promoted_iff.1 he
    exact ⟨_, rfl, by simp [Event.isEnd]⟩
  | replayed =>
    obtain ⟨l, -, -, rfl⟩ := advance_replayed_iff.1 he
    exact ⟨_, rfl, by simp [Event.isEnd]⟩
  | purged =>
    obtain ⟨l, -, -, rfl⟩ := advance_purged_iff.1 he
    exact ⟨_, rfl, by simp [Event.isEnd]⟩

/-- Nothing happens to a job that is done. -/
theorem advance_of_done {l : Life} {e : Event} (hdone : l.phase = .done) :
    advance spent (some l) e = none := by
  cases e <;> simp [hdone]

/-- Only an enqueue begins a life. -/
theorem advance_none_iff {e : Event} :
    advance spent none e = some o' ↔ ∃ l, e = .enqueued l ∧ l.IsNew ∧ o' = some l := by
  cases e <;> simp [eq_comm]

/-- A job that was enqueued is not enqueued again. -/
theorem not_enqueued_of_some {evs : List Event} : ∀ {l : Life},
    evs.foldlM (advance spent) (some l) = some o → ∀ l', .enqueued l' ∉ evs := by
  induction evs with
  | nil => exact fun _ _ ↦ List.not_mem_nil
  | cons e evs ih =>
    intro l hrun l' hmem
    rw [List.foldlM_cons] at hrun
    obtain ⟨o₁, he, hrun⟩ := Option.bind_eq_some_iff.1 hrun
    obtain ⟨l₁, rfl, -⟩ := advance_done_iff he
    rcases List.mem_cons.1 hmem with rfl | hmem
    · simp at he
    · exact ih hrun l' hmem

/-- **Every life begins with its only enqueue.** -/
theorem enqueued_first {evs : List Event} {l : Life}
    (hrun : evs.foldlM (advance spent) none = some (some l)) :
    ∃ l₀ rest, evs = .enqueued l₀ :: rest ∧ l₀.IsNew ∧
      rest.foldlM (advance spent) (some l₀) = some (some l) ∧ ∀ l', .enqueued l' ∉ rest := by
  rcases evs with _ | ⟨e, rest⟩
  · cases hrun
  · rw [List.foldlM_cons] at hrun
    obtain ⟨o₁, he, hrun⟩ := Option.bind_eq_some_iff.1 hrun
    obtain ⟨l₀, rfl, hnew, rfl⟩ := advance_none_iff.1 he
    exact ⟨l₀, rest, rfl, hnew, hrun, not_enqueued_of_some hrun⟩

/-- Whatever happened to a job, it has a life. -/
theorem ne_none_of_mem {evs : List Event} {e : Event}
    (hrun : evs.foldlM (advance spent) o = some o') (he : e ∈ evs) : o' ≠ none := by
  refine Keyed.foldlM_invariant (P := fun past o ↦ past ≠ [] → o ≠ none) (absurd rfl) ?_ hrun
    (List.ne_nil_of_mem he)
  intro past y e y' _ _ hadv _
  obtain ⟨l', rfl, -⟩ := advance_done_iff hadv
  exact Option.some_ne_none l'

/-- What was enqueued was enqueued first. -/
theorem first_of_enqueued {evs : List Event} {l₀ : Life}
    (hrun : evs.foldlM (advance spent) none = some o) (hmem : .enqueued l₀ ∈ evs) :
    ∃ rest, evs = .enqueued l₀ :: rest ∧ rest.foldlM (advance spent) (some l₀) = some o := by
  obtain ⟨l, rfl⟩ := Option.ne_none_iff_exists'.1 (ne_none_of_mem hrun hmem)
  obtain ⟨l₁, rest, rfl, -, hrest, hnever⟩ := enqueued_first hrun
  rcases List.mem_cons.1 hmem with heq | hmem
  · obtain rfl := Event.enqueued.inj heq
    exact ⟨rest, rfl, hrest⟩
  · exact absurd hmem (hnever l₀)

/-- **Which jobs are alive** at the end of a history: those that were enqueued and have not been
ended since. -/
theorem alive_iff {evs : List Event} (hrun : evs.foldlM (advance spent) none = some o) :
    (∃ l, o = some l ∧ l.phase ≠ .done) ↔
      (∃ l, .enqueued l ∈ evs) ∧ ∀ e ∈ evs, e.isEnd = false := by
  -- the name is unused and has no events, or it has a life that knows whether it was ended
  have h := Keyed.foldlM_invariant (δ := advance spent) (P := fun past o ↦ (o = none ∧ past = []) ∨
      ∃ l, o = some l ∧ (∃ l₀, .enqueued l₀ ∈ past) ∧
        (l.phase ≠ .done ↔ ∀ e ∈ past, e.isEnd = false)) (.inl ⟨rfl, rfl⟩) ?_ hrun
  · rcases h with ⟨rfl, rfl⟩ | ⟨l, rfl, henq, hend⟩
    · simp
    · simp [henq, hend]
  · rintro past y e y' - hP he
    obtain ⟨l', rfl, hdone⟩ := advance_done_iff he
    refine .inr ⟨l', rfl, ?_⟩
    rcases hP with ⟨rfl, rfl⟩ | ⟨l, rfl, ⟨l₀, hl₀⟩, hend⟩
    · obtain ⟨l₀, rfl, -, -⟩ := advance_none_iff.1 he
      exact ⟨⟨l₀, by simp⟩, by simp [hdone]⟩
    · have halive : l.phase ≠ .done := by
        intro h
        rw [advance_of_done h] at he
        cases he
      have hpast := hend.1 halive
      refine ⟨⟨l₀, List.mem_append_left _ hl₀⟩, ?_⟩
      simp only [ne_eq, hdone, List.mem_append, List.mem_singleton]
      constructor
      · rintro hne e' (h | rfl)
        · exact hpast e' h
        · simpa using hne
      · intro hall
        simp [hall e (.inr rfl)]

/-! ### Death -/

/-- **Only a failure kills.** A job that is dead after a history without nacks, kills and recoveries
was dead before it. -/
theorem dead_of_not_failed {evs : List Event} {l' : Life}
    (hrun : evs.foldlM (advance spent) o = some (some l')) (hdead : l'.phase = .dead)
    (hfail : ∀ e ∈ evs, e.isFailure = false) : ∃ l, o = some l ∧ l.phase = .dead := by
  have h := Keyed.foldlM_invariant (δ := advance spent) (P := fun _ o' ↦
    (∃ l, o' = some l ∧ l.phase = .dead) → ∃ l, o = some l ∧ l.phase = .dead) (fun h ↦ h) ?_ hrun
  · exact h ⟨l', rfl, hdead⟩
  · rintro past y e y' he hP hadv ⟨l₁, rfl, hl₁⟩
    refine hP ?_
    have hne := hfail e he
    cases e with
    | enqueued l₀ =>
      obtain ⟨-, hnew, ⟨⟩⟩ := advance_enqueued_iff.1 hadv
      rcases hnew with h | ⟨_, h⟩ <;> rw [hl₁] at h <;> cases h
    | claimed w d =>
      obtain ⟨_, -, -, ⟨⟩⟩ := advance_claimed_iff.1 hadv
      cases hl₁
    | acked w =>
      obtain ⟨_, _, -, -, ⟨⟩⟩ := advance_acked_iff.1 hadv
      cases hl₁
    | extended w d =>
      obtain ⟨_, _, -, -, ⟨⟩⟩ := advance_extended_iff.1 hadv
      cases hl₁
    | promoted now =>
      obtain ⟨_, _, -, -, -, ⟨⟩⟩ := advance_promoted_iff.1 hadv
      cases hl₁
    | replayed =>
      obtain ⟨_, -, -, ⟨⟩⟩ := advance_replayed_iff.1 hadv
      cases hl₁
    | purged =>
      obtain ⟨_, -, -, ⟨⟩⟩ := advance_purged_iff.1 hadv
      cases hl₁
    | nacked w r => cases hne
    | killed w => cases hne
    | reaped now => cases hne

/-! ### Leases -/

/-- **What can happen to a leased job**: its holder settles it, its holder renews the lease, or the
lease is past its deadline and the job is recovered. -/
theorem advance_of_active {l : Life} {e : Event} (hphase : l.phase = .active w d)
    (he : advance spent (some l) e = some o') :
    e.Settles w ∨ (∃ d', e = .extended w d' ∧ o' = some { l with phase := .active w d' }) ∨
      ∃ now, e = .reaped now ∧ d ≤ now := by
  cases e with
  | enqueued l₀ => simp at he
  | claimed w' d' => simp [hphase] at he
  | acked w' =>
    obtain ⟨_, _, ⟨⟩, hw, -⟩ := advance_acked_iff.1 he
    exact .inl (Phase.active.inj (hw.symm.trans hphase)).1
  | nacked w' r =>
    obtain ⟨_, _, ⟨⟩, hw, -⟩ := advance_nacked_iff.1 he
    exact .inl (Phase.active.inj (hw.symm.trans hphase)).1
  | killed w' =>
    obtain ⟨_, _, ⟨⟩, hw, -⟩ := advance_killed_iff.1 he
    exact .inl (Phase.active.inj (hw.symm.trans hphase)).1
  | extended w' d' =>
    obtain ⟨_, _, ⟨⟩, hw, rfl⟩ := advance_extended_iff.1 he
    obtain ⟨rfl, -⟩ := Phase.active.inj (hw.symm.trans hphase)
    exact .inr (.inl ⟨d', rfl, rfl⟩)
  | reaped now =>
    obtain ⟨_, _, d', ⟨⟩, hw, hle, -⟩ := advance_reaped_iff.1 he
    obtain ⟨-, rfl⟩ := Phase.active.inj (hw.symm.trans hphase)
    exact .inr (.inr ⟨now, rfl, hle⟩)
  | promoted now => simp [hphase] at he
  | replayed => simp [hphase] at he
  | purged => simp [hphase] at he

/-- **A quiet holder keeps its lease.** From a lease of `w` that outlasts `t`, if `w` does not
settle the job, renews it only past `t`, and no recovery happens after `t`, then all that happens to
the job is that `w` renews the lease. -/
theorem leased_of_quiet {t : ℤ} {evs : List Event} :
    ∀ {l : Life} {d : ℤ}, evs.foldlM (advance spent) (some l) = some o →
      l.phase = .active w d → t < d → (∀ e ∈ evs, ¬ e.Settles w) →
      (∀ now, .reaped now ∈ evs → now ≤ t) → (∀ d', .extended w d' ∈ evs → t < d') →
      ∀ e ∈ evs, ∃ d', e = .extended w d' := by
  induction evs with
  | nil =>
    intro l d _ _ _ _ _ _ e he
    cases he
  | cons e evs ih =>
    intro l d hrun hphase hd hquiet hreap hext e' he'
    rw [List.foldlM_cons] at hrun
    obtain ⟨o₁, he, hrun⟩ := Option.bind_eq_some_iff.1 hrun
    rcases advance_of_active hphase he with hset | ⟨d', rfl, rfl⟩ | ⟨now, rfl, hle⟩
    · exact absurd hset (hquiet e List.mem_cons_self)
    · rcases List.mem_cons.1 he' with rfl | he'
      · exact ⟨d', rfl⟩
      · exact ih hrun rfl (hext d' List.mem_cons_self)
          (fun e h ↦ hquiet e (List.mem_cons_of_mem _ h))
          (fun now h ↦ hreap now (List.mem_cons_of_mem _ h))
          (fun d' h ↦ hext d' (List.mem_cons_of_mem _ h)) e' he'
    · have := hreap now List.mem_cons_self
      omega

/-! ### Waiting -/

/-- **What can happen to a job that waits for a time**: it is promoted, and not before. -/
theorem advance_of_delayed {l : Life} {e : Event} {due : ℤ}
    (hphase : l.phase = .scheduled due ∨ l.phase = .retry due)
    (he : advance spent (some l) e = some o') :
    ∃ now, e = .promoted now ∧ due ≤ now ∧ o' = some { l with phase := .pending } := by
  cases e with
  | promoted now =>
    obtain ⟨_, t, ⟨⟩, hp, hle, rfl⟩ := advance_promoted_iff.1 he
    have ht : t = due := by
      rcases hphase with h | h <;> rcases hp with hp | hp <;> rw [h] at hp <;> cases hp <;> rfl
    exact ⟨now, rfl, ht ▸ hle, rfl⟩
  | _ => rcases hphase with h | h <;> simp [h] at he

/-- The wait ends with a promotion, not before its time. -/
theorem promoted_of_delayed {l : Life} {e : Event} {evs : List Event} {due : ℤ}
    (hphase : l.phase = .scheduled due ∨ l.phase = .retry due)
    (hrun : (e :: evs).foldlM (advance spent) (some l) = some o) :
    ∃ now, e = .promoted now ∧ due ≤ now ∧
      evs.foldlM (advance spent) (some { l with phase := .pending }) = some o := by
  rw [List.foldlM_cons] at hrun
  obtain ⟨o₁, he, hrun⟩ := Option.bind_eq_some_iff.1 hrun
  obtain ⟨now, rfl, hle, rfl⟩ := advance_of_delayed hphase he
  exact ⟨now, rfl, hle, hrun⟩

/-- Only a report makes a job wait that does not. -/
theorem isDelayed_of_advance {l : Life} {e : Event} (he : advance spent (some l) e = some o')
    (hphase : l.phase.isDelayed = false) (hset : e.isSettlement = false) :
    e.isPromotion = false ∧ ∃ l', o' = some l' ∧ l'.phase.isDelayed = false := by
  cases e with
  | enqueued l₀ => simp at he
  | claimed w d =>
    obtain ⟨_, -, -, rfl⟩ := advance_claimed_iff.1 he
    exact ⟨rfl, _, rfl, rfl⟩
  | extended w d =>
    obtain ⟨_, _, -, -, rfl⟩ := advance_extended_iff.1 he
    exact ⟨rfl, _, rfl, rfl⟩
  | reaped now =>
    obtain ⟨l₁, _, _, -, -, -, rfl⟩ := advance_reaped_iff.1 he
    refine ⟨rfl, _, rfl, ?_⟩
    show (l₁.fallTo spent .pending).isDelayed = false
    unfold fallTo
    split <;> rfl
  | promoted now =>
    obtain ⟨_, _, ⟨⟩, hp, -⟩ := advance_promoted_iff.1 he
    rcases hp with h | h <;> rw [h] at hphase <;> cases hphase
  | replayed =>
    obtain ⟨_, -, -, rfl⟩ := advance_replayed_iff.1 he
    exact ⟨rfl, _, rfl, rfl⟩
  | purged =>
    obtain ⟨_, -, -, rfl⟩ := advance_purged_iff.1 he
    exact ⟨rfl, _, rfl, rfl⟩
  | acked w | nacked w r | killed w => cases hset

/-- A job that does not wait is not promoted before its next report. -/
theorem not_promoted_of_ready {evs : List Event} :
    ∀ {l : Life}, evs.foldlM (advance spent) (some l) = some o → l.phase.isDelayed = false →
      (∀ e ∈ evs, e.isSettlement = false) → ∀ e ∈ evs, e.isPromotion = false := by
  induction evs with
  | nil =>
    intro l _ _ _ e he
    cases he
  | cons e evs ih =>
    intro l hrun hphase hset e' he'
    rw [List.foldlM_cons] at hrun
    obtain ⟨o₁, he, hrun⟩ := Option.bind_eq_some_iff.1 hrun
    obtain ⟨hpro, l₁, rfl, hl₁⟩ := isDelayed_of_advance he hphase (hset e List.mem_cons_self)
    rcases List.mem_cons.1 he' with rfl | he'
    · exact hpro
    · exact ih hrun hl₁ (fun e h ↦ hset e (List.mem_cons_of_mem _ h)) e' he'

/-! ### Counters -/

/-- **What an event does to the counters**: short of a reset, a claim costs one attempt, a recovery
adds one recovery, and nothing else moves either. -/
theorem advance_counters {l : Life} {e : Event} (he : advance spent (some l) e = some o')
    (hreset : e.isReset = false) :
    ∃ l', o' = some l' ∧ l'.maxAttempts = l.maxAttempts ∧
      l'.attempt = l.attempt + (if e.isClaim then 1 else 0) ∧
      l'.recoveries = l.recoveries + if e.isReap then 1 else 0 := by
  cases e with
  | enqueued l₀ => simp [Event.isReset] at hreset
  | claimed w d =>
    obtain ⟨_, ⟨⟩, -, rfl⟩ := advance_claimed_iff.1 he
    exact ⟨_, rfl, rfl, rfl, by simp [Event.isReap]⟩
  | acked w =>
    obtain ⟨_, _, ⟨⟩, -, rfl⟩ := advance_acked_iff.1 he
    exact ⟨_, rfl, rfl, by simp [Event.isClaim], by simp [Event.isReap]⟩
  | nacked w r =>
    obtain ⟨_, _, ⟨⟩, -, rfl⟩ := advance_nacked_iff.1 he
    exact ⟨_, rfl, rfl, by simp [Event.isClaim], by simp [Event.isReap]⟩
  | killed w =>
    obtain ⟨_, _, ⟨⟩, -, rfl⟩ := advance_killed_iff.1 he
    exact ⟨_, rfl, rfl, by simp [Event.isClaim], by simp [Event.isReap]⟩
  | extended w d =>
    obtain ⟨_, _, ⟨⟩, -, rfl⟩ := advance_extended_iff.1 he
    exact ⟨_, rfl, rfl, by simp [Event.isClaim], by simp [Event.isReap]⟩
  | reaped now =>
    obtain ⟨_, _, _, ⟨⟩, -, -, rfl⟩ := advance_reaped_iff.1 he
    exact ⟨_, rfl, rfl, by simp [Event.isClaim], rfl⟩
  | promoted now =>
    obtain ⟨_, _, ⟨⟩, -, -, rfl⟩ := advance_promoted_iff.1 he
    exact ⟨_, rfl, rfl, by simp [Event.isClaim], by simp [Event.isReap]⟩
  | replayed => simp [Event.isReset] at hreset
  | purged =>
    obtain ⟨_, ⟨⟩, -, rfl⟩ := advance_purged_iff.1 he
    exact ⟨_, rfl, rfl, by simp [Event.isClaim], by simp [Event.isReap]⟩

/-- Between resets the attempt counter counts claims. -/
theorem attempt_eq_add_claims {evs : List Event} :
    ∀ {l l' : Life}, evs.foldlM (advance spent) (some l) = some (some l') →
      (∀ e ∈ evs, e.isReset = false) → l'.attempt = l.attempt + evs.countP Event.isClaim := by
  induction evs with
  | nil =>
    intro l l' hrun _
    obtain rfl : l = l' := by simpa using hrun
    simp
  | cons e evs ih =>
    intro l l' hrun hreset
    rw [List.foldlM_cons] at hrun
    obtain ⟨o₁, he, hrun⟩ := Option.bind_eq_some_iff.1 hrun
    obtain ⟨l₁, rfl, -, hatt, -⟩ := advance_counters he (hreset e List.mem_cons_self)
    rw [ih hrun fun e' h ↦ hreset e' (List.mem_cons_of_mem _ h), hatt, List.countP_cons]
    push_cast
    omega

/-- **Only a claim starts a lease.** A job that is leased at the end of a history without claims was
leased all along, and its lease was only renewed. -/
theorem extended_of_not_claimed {evs : List Event} :
    ∀ {o : Option Life} {l' : Life} {w' : String} {d' : ℤ},
      evs.foldlM (advance spent) o = some (some l') → l'.phase = .active w' d' →
      (∀ e ∈ evs, e.isClaim = false) →
      (∃ l d, o = some l ∧ l.phase = .active w' d) ∧ ∀ e ∈ evs, ∃ d, e = .extended w' d := by
  induction evs with
  | nil =>
    intro o l' w' d' hrun hphase _
    obtain rfl : o = some l' := by simpa using hrun
    exact ⟨⟨l', d', rfl, hphase⟩, by simp⟩
  | cons e evs ih =>
    intro o l' w' d' hrun hphase hclaim
    rw [List.foldlM_cons] at hrun
    obtain ⟨o₁, he, hrun⟩ := Option.bind_eq_some_iff.1 hrun
    obtain ⟨⟨l₁, d₁, rfl, hl₁⟩, hrest⟩ :=
      ih hrun hphase fun e' h ↦ hclaim e' (List.mem_cons_of_mem _ h)
    have hne := hclaim e List.mem_cons_self
    -- the job is leased after `e`, and `e` is no claim: it can only be a renewal
    obtain ⟨l, d, rfl, hl, rfl⟩ : ∃ l d, o = some l ∧ l.phase = .active w' d ∧
        e = .extended w' d₁ := by
      cases e with
      | enqueued l₀ =>
        obtain ⟨-, hnew, ⟨⟩⟩ := advance_enqueued_iff.1 he
        rcases hnew with h | ⟨_, h⟩ <;> rw [hl₁] at h <;> cases h
      | claimed w d => simp [Event.isClaim] at hne
      | acked w =>
        obtain ⟨_, _, -, -, ⟨⟩⟩ := advance_acked_iff.1 he
        cases hl₁
      | nacked w r =>
        obtain ⟨l, _, -, -, ⟨⟩⟩ := advance_nacked_iff.1 he
        simp only [fallTo] at hl₁
        split at hl₁ <;> cases hl₁
      | killed w =>
        obtain ⟨_, _, -, -, ⟨⟩⟩ := advance_killed_iff.1 he
        cases hl₁
      | extended w d =>
        obtain ⟨l, d₀, rfl, hl, ⟨⟩⟩ := advance_extended_iff.1 he
        obtain ⟨rfl, rfl⟩ := Phase.active.inj hl₁
        exact ⟨l, d₀, rfl, hl, rfl⟩
      | reaped now =>
        obtain ⟨l, _, _, -, -, -, ⟨⟩⟩ := advance_reaped_iff.1 he
        simp only [fallTo] at hl₁
        split at hl₁ <;> cases hl₁
      | promoted now =>
        obtain ⟨_, _, -, -, -, ⟨⟩⟩ := advance_promoted_iff.1 he
        cases hl₁
      | replayed =>
        obtain ⟨_, -, -, ⟨⟩⟩ := advance_replayed_iff.1 he
        cases hl₁
      | purged =>
        obtain ⟨_, -, -, ⟨⟩⟩ := advance_purged_iff.1 he
        cases hl₁
    refine ⟨⟨l, d, rfl, hl⟩, fun e' he' ↦ ?_⟩
    rcases List.mem_cons.1 he' with rfl | h
    · exact ⟨d₁, rfl⟩
    · exact hrest e' h

/-- **A lease is known by its attempt number.** A job that is leased again under the number it had
is leased still: there was no claim, and all that happened to it is that its holder renewed the
lease. Under any other number there was a claim. -/
theorem attempt_eq_iff {evs : List Event} {l l' : Life} {w' : String} {d' : ℤ}
    (hrun : evs.foldlM (advance spent) (some l) = some (some l'))
    (hphase : l'.phase = .active w' d') (hreset : ∀ e ∈ evs, e.isReset = false) :
    (l'.attempt = l.attempt → ∀ e ∈ evs, ∃ d, e = .extended w' d) ∧
      (l'.attempt ≠ l.attempt → ∃ e ∈ evs, e.isClaim = true) := by
  have hcount := attempt_eq_add_claims hrun hreset
  constructor
  · intro heq
    have hzero : evs.countP Event.isClaim = 0 := by omega
    refine (extended_of_not_claimed hrun hphase fun e he ↦ ?_).2
    simpa using List.countP_eq_zero.1 hzero e he
  · intro hne
    have hpos : 0 < evs.countP Event.isClaim := by omega
    exact List.countP_pos_iff.1 hpos

/-! ### The attempt budget over a whole history -/

/-- **The budget, over a history.** The counters count, a waiting job has an attempt left, and a job
is dead only if it was killed or its budget is spent. -/
structure Tally (spent : ℤ → ℤ → Bool) (evs : List Event) (l : Life) : Prop where
  attempt_eq : l.attempt = evs.countP Event.isClaim
  recoveries_eq : l.recoveries = evs.countP Event.isReap
  recoveries_le : l.recoveries + (if l.phase.isLeased then 1 else 0) ≤ l.attempt
  attempt_le : l.attempt ≤ l.maxAttempts
  attempt_lt : l.phase.isWaiting = true → l.attempt < l.maxAttempts
  dead_cause : l.phase = .dead → (∃ w, .killed w ∈ evs) ∨ spent l.attempt l.maxAttempts = true

/-- The test for a spent budget recognises every budget that is used up. -/
def Sound (spent : ℤ → ℤ → Bool) : Prop := ∀ a m : ℤ, m ≤ a → spent a m = true

theorem isWaiting_fallTo {l : Life} {p : Phase} (hspent : Sound spent)
    (h : (l.fallTo spent p).isWaiting = true) : l.attempt < l.maxAttempts := by
  by_contra hge
  simp [fallTo, hspent _ _ (not_lt.1 hge), Phase.isWaiting] at h

theorem isLeased_fallTo {l : Life} {p : Phase} (hp : p.isLeased = false) :
    (l.fallTo spent p).isLeased = false := by
  unfold fallTo
  split
  · rfl
  · exact hp

theorem dead_of_fallTo {l : Life} {p : Phase} (hp : p ≠ .dead)
    (h : l.fallTo spent p = .dead) : spent l.attempt l.maxAttempts = true := by
  by_contra hne
  rw [fallTo, if_neg hne] at h
  exact hp h

/-- One accepted event keeps the tally. -/
theorem Tally.step {past : List Event} {l : Life} {e : Event} (hspent : Sound spent)
    (ht : Tally spent past l) (he : advance spent (some l) e = some o')
    (hreset : e.isReset = false) :
    ∃ l', o' = some l' ∧ l'.maxAttempts = l.maxAttempts ∧ Tally spent (past ++ [e]) l' := by
  obtain ⟨l', rfl, hmax, hatt, hrec⟩ := advance_counters he hreset
  refine ⟨l', rfl, hmax, ?_⟩
  have hatt' : l'.attempt = (past ++ [e]).countP Event.isClaim := by
    rw [hatt, ht.attempt_eq, List.countP_append, List.countP_singleton]
    push_cast
    rfl
  have hrec' : l'.recoveries = (past ++ [e]).countP Event.isReap := by
    rw [hrec, ht.recoveries_eq, List.countP_append, List.countP_singleton]
    push_cast
    rfl
  have hle := ht.recoveries_le
  have hale := ht.attempt_le
  -- the claim behind a lease that ends is not counted as a recovery yet
  have hended : l.phase.isLeased = true → l.recoveries + 1 ≤ l.attempt := by
    intro h
    rwa [h, if_pos rfl] at hle
  cases e with
  | enqueued l₀ => simp [Event.isReset] at hreset
  | claimed w d =>
    obtain ⟨_, ⟨⟩, hphase, ⟨⟩⟩ := advance_claimed_iff.1 he
    have hlt := ht.attempt_lt (by rw [hphase]; rfl)
    rw [hphase] at hle
    simp only [Phase.isLeased, Bool.false_eq_true, if_false] at hle
    refine ⟨hatt', hrec', ?_, Int.add_one_le_of_lt hlt, by simp [Phase.isWaiting], by simp⟩
    simp only [Phase.isLeased, if_true]
    omega
  | acked w =>
    obtain ⟨_, _, ⟨⟩, hphase, ⟨⟩⟩ := advance_acked_iff.1 he
    have hclaims := hended (by rw [hphase]; rfl)
    refine ⟨hatt', hrec', ?_, hale, by simp [Phase.isWaiting], by simp⟩
    simp only [Phase.isLeased, Bool.false_eq_true, if_false]
    omega
  | nacked w r =>
    obtain ⟨_, _, ⟨⟩, hphase, ⟨⟩⟩ := advance_nacked_iff.1 he
    have hclaims := hended (by rw [hphase]; rfl)
    refine ⟨hatt', hrec', ?_, hale, isWaiting_fallTo hspent,
      fun h ↦ .inr (dead_of_fallTo (by simp) h)⟩
    rw [isLeased_fallTo rfl]
    simp only [Bool.false_eq_true, if_false]
    omega
  | killed w =>
    obtain ⟨_, _, ⟨⟩, hphase, ⟨⟩⟩ := advance_killed_iff.1 he
    have hclaims := hended (by rw [hphase]; rfl)
    refine ⟨hatt', hrec', ?_, hale, by simp [Phase.isWaiting], fun _ ↦ .inl ⟨w, by simp⟩⟩
    simp only [Phase.isLeased, Bool.false_eq_true, if_false]
    omega
  | extended w d =>
    obtain ⟨_, _, ⟨⟩, hphase, ⟨⟩⟩ := advance_extended_iff.1 he
    rw [hphase] at hle
    exact ⟨hatt', hrec', hle, hale, by simp [Phase.isWaiting], by simp⟩
  | reaped now =>
    obtain ⟨_, _, _, ⟨⟩, hphase, -, ⟨⟩⟩ := advance_reaped_iff.1 he
    have hclaims := hended (by rw [hphase]; rfl)
    refine ⟨hatt', hrec', ?_, hale, isWaiting_fallTo hspent,
      fun h ↦ .inr (dead_of_fallTo (by simp) h)⟩
    rw [isLeased_fallTo rfl]
    simp only [Bool.false_eq_true, if_false]
    omega
  | promoted now =>
    obtain ⟨_, t, ⟨⟩, hphase, -, ⟨⟩⟩ := advance_promoted_iff.1 he
    have hwait : l.phase.isWaiting = true := by rcases hphase with h | h <;> rw [h] <;> rfl
    have hfree : l.phase.isLeased = false := by rcases hphase with h | h <;> rw [h] <;> rfl
    rw [hfree] at hle
    exact ⟨hatt', hrec', hle, hale, fun _ ↦ ht.attempt_lt hwait, by simp⟩
  | replayed => simp [Event.isReset] at hreset
  | purged =>
    obtain ⟨_, ⟨⟩, hphase, ⟨⟩⟩ := advance_purged_iff.1 he
    rw [hphase] at hle
    exact ⟨hatt', hrec', hle, hale, by simp [Phase.isWaiting], by simp⟩

/-- **The tally of a history.** -/
theorem tally_of_history {evs : List Event} {l₀ l : Life} (hspent : Sound spent) (hnew : l₀.IsNew)
    (hatt : l₀.attempt = 0) (hrec : l₀.recoveries = 0) (hmax : 0 < l₀.maxAttempts)
    (hreset : ∀ e ∈ evs, e.isReset = false)
    (hrun : evs.foldlM (advance spent) (some l₀) = some (some l)) :
    l.maxAttempts = l₀.maxAttempts ∧ Tally spent evs l := by
  have hfree : l₀.phase.isLeased = false ∧ l₀.phase ≠ .dead := by
    rcases hnew with h | ⟨_, h⟩ <;> rw [h] <;> exact ⟨rfl, by simp⟩
  have h0 : Tally spent [] l₀ := by
    refine ⟨by simp [hatt], by simp [hrec], ?_, by omega, fun _ ↦ by omega,
      fun h ↦ absurd h hfree.2⟩
    rw [hfree.1, hatt, hrec]
    simp
  have h := Keyed.foldlM_invariant (P := fun past o ↦ ∃ l, o = some l ∧
      l.maxAttempts = l₀.maxAttempts ∧ Tally spent past l) ⟨l₀, rfl, rfl, h0⟩ ?_ hrun
  · obtain ⟨_, ⟨⟩, hl⟩ := h
    exact hl
  · rintro past y e y' hmem ⟨l₁, rfl, hmax₁, ht⟩ he
    obtain ⟨l', rfl, hmax', ht'⟩ := ht.step hspent he (hreset e hmem)
    exact ⟨l', rfl, hmax'.trans hmax₁, ht'⟩

end Life

end TaskQueue
