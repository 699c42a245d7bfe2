import TaskQueue.Redis.Accounting
import TaskQueue.Redis.Recovery

/-!
# How long a due job waits

A job with a `RunAt` in the future waits in the delayed set, and a job that was nacked in the retry
set. Their time comes, but they are only moved to a ready list by the next promotions: a call of
`promote.lua` takes a limited number of due members, the **delayed set first** and the retry set
with what is left of the limit.

As for orphans (`TaskQueue.Redis.Recovery`), nothing comes in ahead of a due member of the delayed
set, since `enqueue.lua` puts a job there only if its time is still to come. So a server that keeps
its `promoteLoop` running promotes it within an interval for every hundred members ahead of it. A
due member of the retry set is promised less: the times in that set come from the clocks of the
workers, and its share of a promotion is what the due members of the delayed set leave
(`promoteOf`). While they leave room and no nack names an earlier time, the same bound holds
(`due_promoted_in_time`).
-/

namespace TaskQueue.Redis

open Keyed Store Script

variable {cfg : Config} {s s₀ : Store} {c : Call} {t : Turn Store Call}
  {newer older : List (Turn Store Call)} {id : String} {l : Life} {d : ℤ} {set : WaitSet}

/-! ### Waiting for a time -/

/-- The phase of the members of a wait set. -/
def waitPhase : WaitSet → ℤ → Phase
  | .delayed, d => .scheduled d
  | .retry, d => .retry d

theorem waitPhase_or (set : WaitSet) (d : ℤ) :
    waitPhase set d = .scheduled d ∨ waitPhase set d = .retry d := by
  cases set
  · exact .inl rfl
  · exact .inr rfl

theorem wait_iff (hs : Located s) : (waitSet s set).lookup id = some d ↔
    ∃ l, s.life id = some l ∧ l.phase = waitPhase set d := by
  constructor
  · intro hlook
    obtain ⟨e, he, hstate⟩ := hs.of_waitSet hlook
    refine ⟨_, life_eq_some he, ?_⟩
    cases set <;> simp_all [Store.phase, waitState, waitPhase, waitSet]
  · rintro ⟨l, hl, hphase⟩
    obtain ⟨e, he, rfl⟩ := Option.map_eq_some_iff.1 hl
    have hwait : s.phase id e.hash = waitPhase set d := hphase
    have hstate : e.hash.state = waitState set := by
      cases set <;> cases hstate : e.hash.state <;>
        simp_all [Store.phase, waitState, waitPhase]
    have hin : ((waitSet s set).lookup id).isSome :=
      ((hs.counts id).2.2.1 set).2 (by rw [home, he]; exact placeOf_eq_some_iff.2 hstate)
    obtain ⟨d', hd'⟩ := Option.isSome_iff_exists.1 hin
    cases set <;> simp_all [Store.phase, waitState, waitPhase, waitSet]

theorem newLife_scheduled {now : ℤ} {j : Job}
    (hphase : (newLife (jobHash now j)).phase = .scheduled d) : now < d := by
  by_cases hlt : now < msFromTime j.runAt
  · obtain rfl : msFromTime j.runAt = d := by simpa [newLife, jobHash, newHash, hlt] using hphase
    exact hlt
  · simp [newLife, jobHash, newHash, hlt] at hphase

/-- **A wait that is new** ends after now if it is for a `RunAt`, and at the time a nack named if it
is for a retry. -/
theorem wait_of_exec (hs : Located s) (hsafe : Safe (seen cfg s c) c.op)
    (hlook : (waitSet (exec cfg s c).2 set).lookup id = some d) :
    eventsAt id (events cfg s c) = [] ∧ (waitSet s set).lookup id = some d ∨
      set = .delayed ∧ c.now < d ∧ (∃ newID wall o, c.op = .enqueue newID wall o) ∨
      set = .retry ∧ ∃ w r reason, c.op = .nack w id r reason ∧ msFromTime r = d := by
  obtain ⟨l, hl, hphase⟩ := (wait_iff (steps_exec hs hsafe).located).1 hlook
  rcases life_of_exec hs hsafe hl with ⟨hquiet, hsame⟩ | ⟨ev, hev, o, hadv⟩
  · exact .inl ⟨hquiet, (wait_iff hs).2 ⟨l, hsame, hphase⟩⟩
  · cases set with
    | delayed =>
      obtain rfl := Life.event_of_scheduled hadv hphase
      obtain ⟨newID, wall, o, j, hop, -, -, rfl⟩ := mem_events_iff.1 hev
      exact .inr (.inl ⟨rfl, newLife_scheduled hphase, newID, wall, o, hop⟩)
    | retry =>
      obtain ⟨w, rfl⟩ := Life.event_of_retry hadv hphase
      obtain ⟨r, reason, hop, -, hr⟩ := mem_events_iff.1 hev
      exact .inr (.inr ⟨rfl, w, r, reason, hop, hr⟩)

/-! ### Promotions -/

/-- How many due members of the set the turn can promote: the retry set gets what the due members of
the delayed set leave of the limit. -/
def promoteOf (set : WaitSet) (t : Turn Store Call) : ℕ :=
  match t.input.op, set with
  | .promote limit, .delayed => if reads limit then limit.toNat else 0
  | .promote limit, .retry =>
    if reads limit then (limit - (dueMembers t.before.delayed t.input.now limit).length).toNat
    else 0
  | _, _ => 0

/-- The members a promotion takes from a set. -/
theorem mem_promoted {limit : ℤ} {p : ℤ ×ₗ String} (hop : c.op = .promote limit)
    (hp : p ∈ ((waitSet s set).due (fun _ ↦ true) c.now).take (promoteOf set ⟨s, c⟩)) :
    (ofLex p).2 ∈ promoted (seen cfg s c) c.now limit := by
  have hmem : ∀ {z : ZSet} {n : ℤ}, p ∈ (z.due (fun _ ↦ true) c.now).take n.toNat →
      (ofLex p).2 ∈ dueMembers z c.now n := by
    intro z n hp
    rw [dueMembers, Table.keysOf, ← List.map_take]
    exact List.mem_map_of_mem hp
  have hsome : promoteOf set ⟨s, c⟩ ≠ 0 := by
    intro hnone
    rw [hnone, List.take_zero] at hp
    cases hp
  have hreads : reads limit = true := by
    by_contra hno
    exact hsome (by cases set <;> simp only [promoteOf, hop, if_neg hno])
  have hpos : ¬ limit ≤ 0 := by
    intro hle
    refine hsome ?_
    cases set
    · simp only [promoteOf, hop, if_pos hreads]
      omega
    · simp only [promoteOf, hop, if_pos hreads]
      omega
  rw [promoted, if_neg hpos, if_neg (by simp [hreads])]
  cases set with
  | delayed =>
    simp only [promoteOf, hop, if_pos hreads] at hp
    exact List.mem_append_left _ (hmem hp)
  | retry =>
    simp only [promoteOf, hop, if_pos hreads] at hp
    exact List.mem_append_right _ (hmem hp)

/-- The waits that are there after a promotion are those it did not end. -/
theorem kept_of_promote {limit : ℤ} (hs : Located s) (hop : c.op = .promote limit)
    (hlook : (waitSet (exec cfg s c).2 set).lookup id = some d) :
    id ∉ promoted (seen cfg s c) c.now limit := by
  have hsafe : Safe (seen cfg s c) c.op := by
    rw [hop]
    trivial
  intro hmem
  rcases wait_of_exec hs hsafe hlook with
    ⟨hquiet, -⟩ | ⟨-, -, _, _, _, hop'⟩ | ⟨-, _, _, _, hop', -⟩
  · have hev : .promoted c.now ∈ eventsAt id (events cfg s c) :=
      mem_eventsAt.2 (mem_events_iff.2 ⟨limit, hop, hmem, rfl⟩)
    rw [hquiet] at hev
    cases hev
  · rw [hop] at hop'
    cases hop'
  · rw [hop] at hop'
    cases hop'

/-- **A due job moves up.** -/
theorem ahead_of_wait (hs : Located s) (hsafe : Safe (seen cfg s c) c.op)
    (hwait : (waitSet s set).lookup id = some d) (hdue : d ≤ c.now)
    (hskew : set = .retry → ∀ w i r reason, c.op = .nack w i r reason → d < msFromTime r)
    (hkept : (waitSet (exec cfg s c).2 set).lookup id = some d) :
    ((waitSet (exec cfg s c).2 set).ahead (toLex (d, id))).card + promoteOf set ⟨s, c⟩ ≤
      ((waitSet s set).ahead (toLex (d, id))).card := by
  have hsub : (waitSet (exec cfg s c).2 set).ahead (toLex (d, id)) ⊆
      (waitSet s set).ahead (toLex (d, id)) := by
    refine Table.ahead_subset fun k d' hlook ↦ ?_
    rcases wait_of_exec hs hsafe hlook with
      ⟨-, hsame⟩ | ⟨-, hlt, -⟩ | ⟨hset, w, r, reason, hop, rfl⟩
    · exact .inl hsame
    · exact .inr (hdue.trans_lt hlt)
    · exact .inr (hskew hset w k r reason hop)
  by_cases hop : ∃ limit, c.op = .promote limit
  · obtain ⟨limit, hop⟩ := hop
    have hgone : ∀ p ∈ ((waitSet s set).due (fun _ ↦ true) c.now).take (promoteOf set ⟨s, c⟩),
        (waitSet (exec cfg s c).2 set).lookup (ofLex p).2 ≠ some (ofLex p).1 :=
      fun p hp hlook ↦ kept_of_promote hs hop hlook (mem_promoted hop hp)
    refine Table.card_ahead_add_le (Table.mem_due.2 ⟨hwait, hdue, rfl⟩) (fun hmem ↦ ?_) hgone hsub
    exact hgone _ hmem hkept
  · have hnone : promoteOf set ⟨s, c⟩ = 0 := by
      unfold promoteOf
      split
      · next limit hop' => exact absurd ⟨limit, hop'⟩ hop
      · next limit hop' => exact absurd ⟨limit, hop'⟩ hop
      · rfl
    rw [hnone]
    exact Finset.card_le_card hsub

/-! ### The end of a wait -/

/-- A job stops waiting by being promoted. -/
theorem promoted_of_left (hs : Located s) (hsafe : Safe (seen cfg s c) c.op)
    (hl : s.life id = some l) (hphase : l.phase = waitPhase set d)
    (hleft : (exec cfg s c).2.life id ≠ some l) : id ∈ promotionsOf cfg ⟨s, c⟩ := by
  have hndone : l.phase ≠ .done := by
    rw [hphase]
    cases set <;> simp [waitPhase]
  obtain ⟨o, hfold, hshown⟩ := fold_of_life hs hsafe hl hndone
  rcases hevs : eventsAt id (events cfg s c) with - | ⟨ev, evs⟩
  · obtain rfl : some l = o := by simpa [hevs] using hfold
    rcases hshown with heq | ⟨-, l', ⟨⟩, hdone⟩
    · exact absurd heq hleft
    · rw [hphase] at hdone
      cases set <;> cases hdone
  · rw [hevs] at hfold
    obtain ⟨now, rfl, -, -⟩ := Life.promoted_of_delayed (hphase ▸ waitPhase_or set d) hfold
    obtain ⟨limit, hop, hmem, -⟩ := mem_events_iff.1 (mem_eventsAt.1 (hevs ▸ List.mem_cons_self))
    simpa only [promotionsOf, hop] using hmem

/-- **A due job waits for no more promotions than the jobs ahead of it need.** -/
theorem due_promoted (hbefore : (machine cfg).Run (Fresh cfg) older s₀)
    (hrun : (machine cfg).Run (Fresh cfg) (newer ++ older) s)
    (hl : s₀.life id = some l) (hphase : l.phase = waitPhase set d)
    (hdue : ∀ t ∈ newer, d ≤ t.input.now)
    (hskew : set = .retry →
      ∀ t ∈ newer, ∀ w i r reason, t.input.op = .nack w i r reason → d < msFromTime r)
    (hsweeps : ((waitSet s₀ set).ahead (toLex (d, id))).card < (newer.map (promoteOf set)).sum) :
    ∃ t ∈ newer, id ∈ promotionsOf cfg t := by
  have hends := Machine.Run.left_or_waits (fun s ↦ s.life id = some l)
    (fun s ↦ ((waitSet s set).ahead (toLex (d, id))).card) (promoteOf set) hbefore hl hrun
    fun t ht h hrun' hok hwait hwait' ↦ by
      have hs := (lives_of_fresh hrun').1
      have hsafe := hok.safe_of_run hrun'
      exact ahead_of_wait hs hsafe ((wait_iff hs).2 ⟨l, hwait, hphase⟩) (hdue t ht)
        (fun hset ↦ hskew hset t ht)
        ((wait_iff (steps_exec hs hsafe).located).2 ⟨l, hwait', hphase⟩)
  rcases hends with ⟨t, ht, ⟨h, hrun', hok⟩, hwait, hleft⟩ | ⟨-, hle⟩
  · exact ⟨t, ht,
      promoted_of_left (lives_of_fresh hrun').1 (hok.safe_of_run hrun') hwait hphase hleft⟩
  · omega

/-- **A due job is promoted in time.** Some server keeps its `promoteLoop` running, with a timer and
calls that cost at most `slack` a round, and every one of its promotions has room for `L` jobs of
the set. Of the members of the set, `r` are ahead of this one when its time `d` comes. Then it has
been promoted once the loop has run for `r / L + 1` intervals and slacks past `d`.

For the delayed set there is room for a hundred, and nothing else is asked of the other clients. For
the retry set there is what the due delayed jobs leave of it, which can be nothing, and a nack must
not name a time up to `d`, since its job would go in ahead. -/
theorem due_promoted_in_time {vt slack : Duration} {start : Time} {rounds : List Server.Round}
    {made : List (Turn Store Call × Time)} {L : ℕ}
    (hbefore : (machine cfg).Run (Fresh cfg) older s₀)
    (hrun : (machine cfg).Run (Fresh cfg) (newer ++ older) s)
    (hl : s₀.life id = some l) (hphase : l.phase = waitPhase set d)
    (holder : ∀ t ∈ older, t.input.now < d) (hdue : ∀ t ∈ newer, d ≤ t.input.now)
    (hskew : set = .retry →
      ∀ t ∈ newer, ∀ w i r reason, t.input.op = .nack w i r reason → d < msFromTime r)
    (hslack : 0 ≤ slack) (hrounds : ∀ r ∈ rounds, r.Within (Server.promoteInterval vt) slack)
    (hstart : start < d * millisecond)
    (hloop : Loops (Server.calls (Server.promoteInterval vt) start rounds)
      (.promote Server.promoteBatch) made (newer ++ older)) (hL : 0 < L)
    (hroom : ∀ t ∈ newer, t.input.op = .promote Server.promoteBatch → L ≤ promoteOf set t)
    (hlong : d * millisecond + (((waitSet s₀ set).ahead (toLex (d, id))).card / L + 1 : ℕ) *
        (Server.promoteInterval vt + 2 * slack) ≤
      Server.finish (Server.promoteInterval vt) start rounds) :
    ∃ t ∈ newer, id ∈ promotionsOf cfg t := by
  refine due_promoted hbefore hrun hl hphase hdue hskew ?_
  have hdone := hloop.mul_le_sum (d := d - 1) (promoteOf set) (Server.orSecond_pos _) hslack hrounds
    (by rwa [sub_add_cancel]) (by rwa [sub_add_cancel])
    (fun t ht ↦ Int.le_sub_one_of_lt (holder t ht)) hroom
  refine lt_of_lt_of_le ?_ hdone
  rw [Nat.add_mul, Nat.one_mul]
  exact Nat.lt_div_mul_add hL

/-- A job is scheduled for the fifth millisecond. -/
def scheduling : Turn Store Call :=
  ⟨empty, ⟨0, .enqueue "a" 0 (some { Job.plain "q" "t" 2 with runAt := 5 * 10 ^ 6 })⟩⟩

/-- A round of a `promoteLoop` with the longest sleep there is. -/
def longPause : Server.Round := ⟨5 * 10 ^ 8 - 1, 0, 0⟩

/-- The first promotion after it. -/
def firstPromotion : Turn Store Call := ⟨(machine .default).after scheduling, ⟨999, .promote 100⟩⟩

/-- The promotion after that. -/
def secondPromotion : Turn Store Call :=
  ⟨(machine .default).after firstPromotion, ⟨1999, .promote 100⟩⟩

theorem due_promoted_in_time_second :
    ∃ t ∈ [secondPromotion, firstPromotion], "a" ∈ promotionsOf .default t := by
  have hloop : Loops (Server.calls (Server.promoteInterval hour) 0 [longPause, longPause])
      (.promote Server.promoteBatch) [(firstPromotion, 999999999), (secondPromotion, 1999999998)]
      ([secondPromotion, firstPromotion] ++ [scheduling]) := by
    refine ⟨.cons (by decide) (.cons (by decide) .nil), fun y hy ↦ ?_, by simp⟩
    rcases List.mem_pair.1 hy with rfl | rfl
    · rfl
    · rfl
  have hscheduled : (machine .default).Run (Fresh .default) [scheduling]
      ((machine .default).after scheduling) := .step _ .start (by simp [Fresh])
  refine due_promoted_in_time (L := 100) hscheduled
    (.step _ (.step _ hscheduled (by simp [Fresh])) (by simp [Fresh])) rfl
    (show (Life.mk "q" 2 0 0 (.scheduled 5)).phase = waitPhase .delayed 5 from rfl)
    (by simp [scheduling]) (by simp [firstPromotion, secondPromotion])
    (by simp [firstPromotion, secondPromotion]) le_rfl ?_ (by decide) hloop (by decide) ?_ ?_
  · intro r hr
    rcases List.mem_pair.1 hr with rfl | rfl <;>
      exact ⟨fun _ ↦ by decide, by decide, by decide, by decide⟩
  · intro t ht _
    rcases List.mem_pair.1 ht with rfl | rfl <;> decide
  · decide +kernel

end TaskQueue.Redis
