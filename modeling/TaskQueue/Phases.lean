import TaskQueue.Lifecycle

/-!
# How a job got into its phase

The automaton of a job's life, read backwards. A job that was left alone is as it was, and of a job
that something happened to the **last event** says which phase it is in: a lease that ends at `d`
was granted or renewed until `d`, a job that waits for its `RunAt` was enqueued with it, and one
that waits for a retry was nacked with the time of that retry.
-/

namespace TaskQueue.Life

variable {spent : ℤ → ℤ → Bool} {o o' : Option Life} {l : Life} {e : Event} {w : String} {d : ℤ}

/-- Nothing happened, or something happened last. -/
theorem last_of_fold {evs : List Event} (hfold : evs.foldlM (advance spent) o = some o') :
    evs = [] ∧ o = o' ∨ ∃ e ∈ evs, ∃ o₁, advance spent o₁ e = some o' := by
  rcases List.eq_nil_or_concat evs with rfl | ⟨evs, e, rfl⟩
  · exact .inl ⟨rfl, by simpa using hfold⟩
  · rw [List.concat_eq_append, List.foldlM_append] at hfold
    obtain ⟨o₁, -, hlast⟩ := Option.bind_eq_some_iff.1 hfold
    exact .inr ⟨e, by simp, o₁, by simpa using hlast⟩

/-- **What the last event says about the phase**: only a claim or a renewal leaves a job active,
only an enqueue leaves it scheduled, and only a nack leaves it waiting for a retry. -/
theorem cause_of_phase (he : advance spent o e = some (some l)) :
    (∃ w d, l.phase = .active w d ∧ (e = .claimed w d ∨ e = .extended w d)) ∨
    (∃ d, l.phase = .scheduled d ∧ e = .enqueued l) ∨
    (∃ w d, l.phase = .retry d ∧ e = .nacked w d) ∨
    l.phase = .pending ∨ l.phase = .dead ∨ l.phase = .done := by
  cases e with
  | enqueued l₀ =>
    obtain ⟨-, hnew | ⟨d, hnew⟩, ⟨⟩⟩ := advance_enqueued_iff.1 he
    · exact .inr (.inr (.inr (.inl hnew)))
    · exact .inr (.inl ⟨d, hnew, rfl⟩)
  | claimed w d =>
    obtain ⟨_, -, -, ⟨⟩⟩ := advance_claimed_iff.1 he
    exact .inl ⟨w, d, rfl, .inl rfl⟩
  | acked w =>
    obtain ⟨_, _, -, -, ⟨⟩⟩ := advance_acked_iff.1 he
    simp
  | nacked w r =>
    obtain ⟨l₀, _, -, -, ⟨⟩⟩ := advance_nacked_iff.1 he
    by_cases hspent : spent l₀.attempt l₀.maxAttempts = true
    · simp [fallTo, hspent]
    · simp [fallTo, hspent]
  | killed w =>
    obtain ⟨_, _, -, -, ⟨⟩⟩ := advance_killed_iff.1 he
    simp
  | extended w d =>
    obtain ⟨_, _, -, -, ⟨⟩⟩ := advance_extended_iff.1 he
    exact .inl ⟨w, d, rfl, .inr rfl⟩
  | reaped now =>
    obtain ⟨l₀, _, _, -, -, -, ⟨⟩⟩ := advance_reaped_iff.1 he
    by_cases hspent : spent l₀.attempt l₀.maxAttempts = true
    · simp [fallTo, hspent]
    · simp [fallTo, hspent]
  | promoted now =>
    obtain ⟨_, _, -, -, -, ⟨⟩⟩ := advance_promoted_iff.1 he
    simp
  | replayed =>
    obtain ⟨_, -, -, ⟨⟩⟩ := advance_replayed_iff.1 he
    simp
  | purged =>
    obtain ⟨_, -, -, ⟨⟩⟩ := advance_purged_iff.1 he
    simp

theorem event_of_active (he : advance spent o e = some (some l)) (hphase : l.phase = .active w d) :
    e = .claimed w d ∨ e = .extended w d := by
  have hcause := cause_of_phase he
  rw [hphase] at hcause
  simpa using hcause

theorem event_of_scheduled (he : advance spent o e = some (some l))
    (hphase : l.phase = .scheduled d) : e = .enqueued l := by
  have hcause := cause_of_phase he
  rw [hphase] at hcause
  simpa using hcause

theorem event_of_retry (he : advance spent o e = some (some l)) (hphase : l.phase = .retry d) :
    ∃ w, e = .nacked w d := by
  have hcause := cause_of_phase he
  rw [hphase] at hcause
  simpa using hcause

/-- **A lease that nobody ends goes on**, for its holder and until the latest renewal. -/
theorem active_of_fold {evs : List Event} : ∀ {l : Life} {d : ℤ},
    evs.foldlM (advance spent) (some l) = some o → l.phase = .active w d →
    (∀ e ∈ evs, ¬ e.Settles w) → (∀ now, .reaped now ∉ evs) →
    ∃ l' d', o = some l' ∧ l'.phase = .active w d' := by
  induction evs with
  | nil =>
    intro l d hfold hphase _ _
    exact ⟨l, d, by simpa using hfold.symm, hphase⟩
  | cons e evs ih =>
    intro l d hfold hphase hquiet hreap
    rw [List.foldlM_cons] at hfold
    obtain ⟨o₁, he, hfold⟩ := Option.bind_eq_some_iff.1 hfold
    rcases advance_of_active hphase he with hset | ⟨d', rfl, rfl⟩ | ⟨now, rfl, -⟩
    · exact absurd hset (hquiet e List.mem_cons_self)
    · exact ih hfold rfl (fun e he ↦ hquiet e (List.mem_cons_of_mem _ he))
        fun now hnow ↦ hreap now (List.mem_cons_of_mem _ hnow)
    · exact absurd List.mem_cons_self (hreap now)

end TaskQueue.Life
