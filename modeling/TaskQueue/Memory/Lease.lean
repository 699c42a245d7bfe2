import TaskQueue.Memory.Location

/-!
# The visibility lease is exclusive

A worker that claims a job, or renews its lease on one, is told how long the job is its own. Until
then no other claim may return the job and no reap may touch it, **whoever asks**: a second claim by
the holder itself would be as wrong as one by a stranger. The exceptions are what the holder does
itself: it settles the job, or it renews the lease to a deadline that has already passed when the
next claim or reap comes.

The argument is about one job's life (`Life.leased_of_quiet`); what is done here is to read the
calls of a run as events of that life. A turn that grants a lease leaves the job leased, and what
happens to the job from then on is a list of events the automaton accepts.
-/

namespace TaskQueue.Memory

open Keyed Broker

/-- A `Dequeue` by worker `w` returned the job with this deadline. -/
def Claims (t : Turn Broker Call) (w id : String) (deadline : Time) : Prop :=
  ∃ o j, t.input.op = .dequeue o ∧ o.workerID = w ∧ reply t = .claimed j ∧ j.id = id ∧
    j.deadline = deadline

/-- An `Extend` by worker `w` renewed the job to this deadline: the job was named, and it was not
reported lost. -/
def Renews (t : Turn Broker Call) (w id : String) (deadline : Time) : Prop :=
  ∃ ids vt lost, t.input.op = .extend w ids vt ∧ reply t = .lost lost ∧ id ∈ ids ∧ id ∉ lost ∧
    t.input.now + vt = deadline

/-- An `Ack`, `Nack` or `Kill` of the job by worker `w` succeeded. -/
def Settles (t : Turn Broker Call) (w id : String) : Prop :=
  reply t = .done ∧ (t.input.op = .ack w id ∨ (∃ r reason, t.input.op = .nack w id r reason) ∨
    ∃ reason, t.input.op = .kill w id reason)

/-- A `Reap` acted on the job: it changed what is stored for it. -/
def Reaps (t : Turn Broker Call) (id : String) : Prop :=
  (∃ queues limit, t.input.op = .reap queues limit) ∧
    (machine.after t).jobs.lookup id ≠ t.before.jobs.lookup id

variable {b : Broker} {c : Call} {t : Turn Broker Call} {h newer older : List (Turn Broker Call)}
  {id w : String} {d : Time}

/-! ### Reading the calls as events -/

theorem dequeueFrom_ok {now : Time} {vt : Duration} {j : Job} {qs : List String} :
    ∀ {b : Broker}, (dequeueFrom now w vt qs b).1 = .ok j → j.owner = w := by
  induction qs with
  | nil =>
    intro b hj
    cases hj
  | cons q qs ih =>
    intro b hj
    rw [dequeueFrom] at hj
    rcases hq : b.pending q with _ | ⟨id, rest⟩
    · simp only [hq] at hj
      exact ih hj
    · rcases hid : b.jobs.lookup id with _ | j'
      · simp only [hq, hid] at hj
        exact ih hj
      · simp only [hq, hid] at hj
        obtain rfl := Except.ok.inj hj
        rfl

/-- The worker that claimed a job owns it. -/
theorem owner_of_claimed {o : ClaimOpts} {j : Job} (hop : c.op = .dequeue o)
    (hreply : (exec b c).1 = .claimed j) : j.owner = o.workerID := by
  have hok : (b.dequeue c.now o).1 = .ok j := by
    simp only [exec, hop, Prod.map_fst] at hreply
    rcases hr : (b.dequeue c.now o).1 with e | j'
    · rw [hr] at hreply
      cases hreply
    · rw [hr] at hreply
      rw [Reply.claimed.inj hreply]
  rw [dequeue] at hok
  split_ifs at hok
  exact dequeueFrom_ok hok

/-- `Extend` reports exactly the jobs it did not renew. -/
theorem extendLoop_fst {deadline : Time} {ids : List String} :
    ∀ {b : Broker}, (extendLoop w deadline ids b).1 =
      ids.filter fun i ↦ !(b.ownedActive w i).isOk := by
  induction ids with
  | nil =>
    intro b
    rfl
  | cons i ids ih =>
    intro b
    rw [extendLoop]
    rcases hown : b.ownedActive w i with e | j
    · rw [List.filter_cons_of_pos (by rw [hown]; rfl), ← ih]
    · obtain ⟨hj, -, -⟩ := ownedActive_eq_ok.1 hown
      rw [List.filter_cons_of_neg (by simp [hown, Except.isOk, Except.toBool])]
      show (extendLoop w deadline ids (b.renew i j deadline)).1 = _
      rw [ih]
      simp only [isOk_ownedActive_renew hj]

theorem lost_eq {ids lost : List String} {vt : Duration} (hop : c.op = .extend w ids vt)
    (hreply : (exec b c).1 = .lost lost) :
    lost = ids.filter fun i ↦ !(b.ownedActive w i).isOk := by
  simp only [exec, hop, Prod.map_fst, extend] at hreply
  split_ifs at hreply
  · cases hreply
  · cases hreply
  · exact (Reply.lost.inj hreply).symm.trans extendLoop_fst

/-- A job is renewed exactly if it was named and not reported lost. -/
theorem mem_renewed_iff {ids lost : List String} {vt : Duration} (hop : c.op = .extend w ids vt)
    (hreply : (exec b c).1 = .lost lost) : id ∈ b.renewed w ids ↔ id ∈ ids ∧ id ∉ lost := by
  rw [lost_eq hop hreply, renewed, List.mem_filter, List.mem_filter]
  cases (b.ownedActive w id).isOk <;> simp

/-- What a grant does to the job: it claims it or renews its lease, and all that follows in the same
call are renewals to the same deadline, for an `Extend` that names the job more than once. -/
theorem eventsAt_of_grant (hgrant : Claims t w id d ∨ Renews t w id d) :
    ∃ e rest, eventsAt id (events t.before t.input) = e :: rest ∧
      (e = .claimed w d ∨ e = .extended w d) ∧ ∀ e' ∈ rest, e' = .extended w d := by
  rcases hgrant with ⟨o, j, hop, hw, hreply, hid, hd⟩ | ⟨ids, vt, lost, hop, hreply, hid, hlost, hd⟩
  · refine ⟨.claimed w d, [], ?_, .inl rfl, by simp⟩
    have hown := owner_of_claimed hop hreply
    simp only [events, hop, show (exec t.before t.input).1 = .claimed j from hreply]
    rw [hown, hw, hd, hid, eventsAt_cons_self]
    rfl
  · have hmem := (mem_renewed_iff hop hreply).2 ⟨hid, hlost⟩
    have hevents : events t.before t.input =
        (t.before.renewed w ids).map fun i ↦ (i, .extended w d) := by
      simp only [events, hop, show (exec t.before t.input).1 = .lost lost from hreply, hd]
    obtain ⟨n, hn⟩ := Nat.exists_eq_add_one.2 (List.count_pos_iff.2 hmem)
    refine ⟨.extended w d, List.replicate n (.extended w d), ?_, .inr rfl,
      fun e' he' ↦ (List.mem_replicate.1 he').2⟩
    rw [hevents, eventsAt_map_const, hn, List.replicate_succ]

/-- A granted lease is held: whatever the event, the job is leased to `w` until `d` after it. -/
theorem active_of_grant {o o' : Option Life} {e : Event}
    (he : Life.advance spent o e = some o') (hkind : e = .claimed w d ∨ e = .extended w d) :
    ∃ l, o' = some l ∧ l.phase = .active w d := by
  rcases hkind with rfl | rfl
  · obtain ⟨l, -, -, rfl⟩ := Life.advance_claimed_iff.1 he
    exact ⟨_, rfl, rfl⟩
  · obtain ⟨l, _, -, -, rfl⟩ := Life.advance_extended_iff.1 he
    exact ⟨_, rfl, rfl⟩

/-- A takeover does something to the job. -/
theorem exists_event_of_takeover (hrun : machine.Run Admissible (t :: h) b)
    (htake : (∃ w d, Claims t w id d) ∨ Reaps t id) : ∃ e, (id, e) ∈ events t.before t.input := by
  rcases htake with ⟨w', d', o, j, hop, -, hreply, hid, -⟩ | ⟨-, hchange⟩
  · exact ⟨.claimed j.owner j.deadline,
      mem_events_iff.2 ⟨o, j, hop, hreply, hid, rfl, rfl⟩⟩
  · by_contra hnone
    exact hchange ((steps_of_run hrun).frame id fun e he ↦ hnone ⟨e, he⟩)

/-- And it does nothing but claim or recover. -/
theorem event_of_takeover {e : Event} (htake : (∃ w d, Claims t w id d) ∨ Reaps t id)
    (hmem : (id, e) ∈ events t.before t.input) :
    (∃ w' d', e = .claimed w' d') ∨ e = .reaped t.input.now := by
  have hdid := mem_events_iff.1 hmem
  rcases htake with ⟨_, _, o, j, hop, -⟩ | ⟨⟨queues, limit, hop⟩, -⟩
  · cases e with
    | claimed w' d' => exact .inl ⟨w', d', rfl⟩
    | _ => simp [Did, hop] at hdid
  · cases e with
    | reaped now =>
      obtain ⟨_, _, _, -, -, -, rfl⟩ := hdid
      exact .inr rfl
    | _ => simp [Did, hop] at hdid

theorem settles_of_event {e : Event} (hmem : (id, e) ∈ events t.before t.input)
    (he : e.Settles w) : Settles t w id := by
  have hdid := mem_events_iff.1 hmem
  cases e with
  | acked w' =>
    obtain rfl : w' = w := he
    exact ⟨hdid.2, .inl hdid.1⟩
  | nacked w' r =>
    obtain rfl : w' = w := he
    obtain ⟨reason, hop, hreply⟩ := hdid
    exact ⟨hreply, .inr (.inl ⟨r, reason, hop⟩)⟩
  | killed w' =>
    obtain rfl : w' = w := he
    obtain ⟨reason, hop, hreply⟩ := hdid
    exact ⟨hreply, .inr (.inr ⟨reason, hop⟩)⟩
  | _ => exact he.elim

theorem renews_of_event (hmem : (id, .extended w d) ∈ events t.before t.input) :
    Renews t w id d := by
  obtain ⟨ids, vt, lost, hop, hreply, hid, hd⟩ := mem_events_iff.1 hmem
  obtain ⟨hin, hlost⟩ := (mem_renewed_iff hop hreply).1 hid
  exact ⟨ids, vt, lost, hop, hreply, hin, hlost, hd⟩

/-! ### The theorem -/

/-- **The visibility lease is exclusive.** If a turn of a run grants `w` a lease on a job until `d`,
and a later turn at a time before `d` claims the job or reaps it, then in between `w` settled the
job or renewed the lease to a deadline that had passed at that time. -/
theorem exclusive_lease {granted taken : Turn Broker Call} {between : List (Turn Broker Call)}
    (hrun : machine.Run Admissible (taken :: (between ++ granted :: older)) b)
    (hgrant : Claims granted w id d ∨ Renews granted w id d)
    (htake : (∃ w' d', Claims taken w' id d') ∨ Reaps taken id) (hbefore : taken.input.now < d) :
    ∃ t ∈ between, Settles t w id ∨ ∃ d' ≤ taken.input.now, Renews t w id d' := by
  obtain ⟨hprev, hok, -⟩ := hrun.of_cons
  obtain ⟨-, a₀, hfollows₀, -⟩ := lives_of_run hprev.of_append.1
  obtain ⟨-, a, hfollows, -⟩ := lives_of_run hrun
  obtain ⟨e, rest, hevents, hkind, hrest⟩ := eventsAt_of_grant hgrant
  -- what happens to the job from the grant on
  have hlater : (eventsAt id (events granted.before granted.input ++ history events between ++
      events taken.before taken.input)).foldlM (Life.advance spent) (a₀ id) = some (a id) := by
    have hsplit : Follows (Life.advance spent) (fun _ ↦ none) (history events older ++
        (events granted.before granted.input ++ history events between ++
          events taken.before taken.input)) a := by
      simpa [history, history_append] using hfollows
    exact hfollows₀.of_append hsplit id
  rw [eventsAt_append, eventsAt_append, hevents, List.cons_append, List.cons_append,
    List.foldlM_cons] at hlater
  obtain ⟨o, he, hlater⟩ := Option.bind_eq_some_iff.1 hlater
  obtain ⟨l, rfl, hphase⟩ := active_of_grant he hkind
  by_contra hquiet
  have hclock : ∀ t ∈ between, t.input.now ≤ taken.input.now := fun t ht ↦
    hok.clock t (List.mem_append_left _ ht)
  -- every later event is a renewal of the grant's own call, one of a turn in between, or the
  -- takeover
  have hcases : ∀ e', e' ∈ rest ++ eventsAt id (history events between) ++
      eventsAt id (events taken.before taken.input) → e' = .extended w d ∨
        (∃ t ∈ between, (id, e') ∈ events t.before t.input) ∨
        (∃ w' d', e' = .claimed w' d') ∨ e' = .reaped taken.input.now := by
    intro e' he'
    rcases List.mem_append.1 he' with he' | he'
    · rcases List.mem_append.1 he' with he' | he'
      · exact .inl (hrest e' he')
      · exact .inr (.inl (mem_history.1 (mem_eventsAt.1 he')))
    · exact .inr (.inr (event_of_takeover htake (mem_eventsAt.1 he')))
  have hall := Life.leased_of_quiet (t := taken.input.now) hlater hphase hbefore ?_ ?_ ?_
  · obtain ⟨e', he'⟩ := exists_event_of_takeover hrun htake
    obtain ⟨d', rfl⟩ := hall e' (List.mem_append_right _ (mem_eventsAt.2 he'))
    rcases event_of_takeover htake he' with ⟨_, _, h⟩ | h <;> cases h
  · intro e' he' hset
    rcases hcases e' he' with rfl | ⟨t, ht, hmem⟩ | ⟨_, _, rfl⟩ | rfl
    · exact hset
    · exact hquiet ⟨t, ht, .inl (settles_of_event hmem hset)⟩
    · exact hset
    · exact hset
  · intro now he'
    rcases hcases _ he' with h | ⟨t, ht, hmem⟩ | ⟨_, _, h⟩ | h
    · cases h
    · obtain ⟨_, _, _, -, -, -, rfl⟩ := mem_events_iff.1 hmem
      exact hclock t ht
    · cases h
    · cases h
      exact le_rfl
  · intro d' he'
    rcases hcases _ he' with h | ⟨t, ht, hmem⟩ | ⟨_, _, h⟩ | h
    · cases h
      exact hbefore
    · by_contra hle
      exact hquiet ⟨t, ht, .inr ⟨d', not_lt.1 hle, renews_of_event hmem⟩⟩
    · cases h
    · cases h

/-- The exception is real: `w` claims a job until 101, renews the lease to the earlier deadline 12,
and the job is reaped at 20. -/
theorem exclusive_lease_shortened : ∃ (granted taken : Turn Broker Call)
    (between older : List (Turn Broker Call)) (b : Broker),
      machine.Run Admissible (taken :: (between ++ granted :: older)) b ∧
      Claims granted "w" "a" 101 ∧ Reaps taken "a" ∧ taken.input.now < 101 ∧
      ∃ t ∈ between, Settles t "w" "a" ∨ ∃ d' ≤ taken.input.now, Renews t "w" "a" d' := by
  let c₁ : Call := ⟨0, .enqueue "a" (some (.plain "q" "t" 3))⟩
  let c₂ : Call := ⟨1, .dequeue ⟨"w", ["q"], 100⟩⟩
  let c₃ : Call := ⟨2, .extend "w" ["a"] 10⟩
  let c₄ : Call := ⟨20, .reap [] 5⟩
  have hrun : machine.Run Admissible _ _ := .step c₄ (.step c₃ (.step c₂ (.step c₁ .start
    ⟨by simp, by simp, by simp⟩) ⟨by simp [c₁, c₂], by simp [c₂], by simp [c₂]⟩)
    ⟨by simp [c₁, c₂, c₃], by simp [c₃], by simp [c₃]⟩)
    ⟨by simp [c₁, c₂, c₃, c₄], by simp [c₄], by simp [c₄]⟩
  let b₁ := machine.next new c₁
  let b₂ := machine.next b₁ c₂
  let b₃ := machine.next b₂ c₃
  have hsplit : machine.Run Admissible
    (⟨b₃, c₄⟩ :: ([⟨b₂, c₃⟩] ++ ⟨b₁, c₂⟩ :: [⟨new, c₁⟩])) (machine.next b₃ c₄) := hrun
  have hclaim : Claims ⟨b₁, c₂⟩ "w" "a" 101 := ⟨_, _, rfl, rfl, rfl, rfl, rfl⟩
  have hreap : Reaps ⟨b₃, c₄⟩ "a" := ⟨⟨_, _, rfl⟩, by decide⟩
  exact ⟨⟨b₁, c₂⟩, ⟨b₃, c₄⟩, [⟨b₂, c₃⟩], [⟨new, c₁⟩], _, hsplit, hclaim, hreap, by decide,
    exclusive_lease hsplit (.inl hclaim) (.inr hreap) (by decide)⟩

end TaskQueue.Memory
