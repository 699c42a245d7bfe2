import TaskQueue.Fencing
import TaskQueue.Redis.Unique

/-!
# Positive durations

The Go side checks durations in nanoseconds and passes them on in whole milliseconds. A duration
that is positive but shorter than a millisecond passes the check and arrives at the script as
**zero**, which each script gives a meaning of its own: a claim or a renewal for no time is already
expired, a unique window of no time turns the unique check off, and a lease for no time is a `SET`
that Redis refuses.

The four laws below say that a duration has its effect, for every state a run can reach and every
server time. Each of them holds exactly for durations of at least a millisecond
(`durations_take_effect_iff`). The unique window of the *second* job matters as well, since the
check is made with its own.

Named leases are not in `Store`, which holds the keys of jobs and schedules. Their keys are a
keyspace of their own here; `TaskQueue.Redis.Keys` says that no key is shared.
-/

namespace TaskQueue.Redis

/-! ### Named leases -/

/-- A lease key: the owner, and the expiry. -/
structure LeaseKey where
  value : String
  expireAt : ℤ
  deriving DecidableEq

/-- `kLease` -/
abbrev Leases := String → Option LeaseKey

/-- The lease keys a script run at `now` sees. -/
def Leases.live (l : Leases) (visible : ℤ → ℤ → Bool) (now : ℤ) : Leases :=
  fun name ↦ (l name).filter fun k ↦ visible now k.expireAt

namespace Script

/-- `SET key value PX ttl`. Redis refuses a time to live that is not positive. -/
def setPX (l : Leases) (now : ℤ) (name value : String) (ttl : ℤ) : Option Leases :=
  if ttl ≤ 0 then none else some (Function.update l name (some ⟨value, now + ttl⟩))

/-- `lease_acquire.lua`. There is no reply if the `SET` raises an error. -/
def leaseAcquire (l : Leases) (now : ℤ) (name owner : String) (ttl : ℤ) : Option Bool × Leases :=
  if (l name).all fun k ↦ k.value = owner then
    match setPX l now name owner ttl with
    | none => (none, l)
    | some l => (some true, l)
  else (some false, l)

/-- `lease_release.lua` -/
def leaseRelease (l : Leases) (name owner : String) : Bool × Leases :=
  if (l name).any fun k ↦ k.value = owner then (true, Function.update l name none) else (false, l)

end Script

/-- The errors of the lease operations: those of the Go checks, and a Redis error, which is wrapped
with the name of the lease. -/
inductive LeaseError
  | invalid (e : Err)
  | redis (name : String)
  deriving DecidableEq

/-- `AcquireLease` -/
def acquireLease (l : Leases) (now : ℤ) (name owner : String) (ttl : Duration) :
    Except LeaseError Bool × Leases :=
  if name = "" ∨ owner = "" then
    (.error (.invalid (.invalidTask "lease name and owner must be non-empty")), l)
  else if ttl ≤ 0 then (.error (.invalid (.invalidTask "lease ttl must be positive")), l)
  else
    match Script.leaseAcquire l now name owner (milliseconds ttl) with
    | (none, l) => (.error (.redis name), l)
    | (some held, l) => (.ok held, l)

/-- `ReleaseLease` -/
def releaseLease (l : Leases) (name owner : String) : Except LeaseError Unit × Leases :=
  if name = "" ∨ owner = "" then
    (.error (.invalid (.invalidTask "lease name and owner must be non-empty")), l)
  else (.ok (), (Script.leaseRelease l name owner).2)

/-- The operations on leases. -/
inductive LeaseOp
  | acquire (name owner : String) (ttl : Duration)
  | release (name owner : String)

/-- A call: the server time in milliseconds, and the operation. -/
structure LeaseCall where
  now : ℤ
  op : LeaseOp

/-- The leases under any sequence of calls, by any number of clients. -/
def leaseMachine (cfg : Config) : Machine Leases LeaseCall where
  init := fun _ ↦ none
  next l c :=
    match c.op with
    | .acquire name owner ttl =>
      (acquireLease (l.live cfg.visible c.now) c.now name owner ttl).2
    | .release name owner => (releaseLease (l.live cfg.visible c.now) name owner).2

/-! ### The laws -/

section

variable (cfg : Config)

/-- Worker `w` holds the lease on job `id`. -/
def Held (s : Store) (id w : String) : Prop :=
  ∃ e, s.job id = some e ∧ e.hash.state = .active ∧ e.hash.owner = w

/-- The store after a `Reap` at the server time `now`. -/
def afterReap (s : Store) (now : ℤ) (queues : List String) (limit : ℤ) : Store :=
  (reap (s.live cfg.visible now) now queues limit).2

/-- A job that was claimed for `d` is not recovered at the same server time. -/
def ClaimHolds (d : Duration) : Prop :=
  ∀ h s, (machine cfg).Run (Fresh cfg) h s → ∀ now o j, o.visibilityTimeout = d →
    (exec cfg s ⟨now, .dequeue o⟩).1 = .claimed j → ∀ queues limit,
    Held (afterReap cfg (exec cfg s ⟨now, .dequeue o⟩).2 now queues limit) j.id o.workerID

/-- A job whose lease was renewed for `d` is not recovered at the same server time. -/
def ExtendHolds (d : Duration) : Prop :=
  ∀ h s, (machine cfg).Run (Fresh cfg) h s → ∀ now w ids lost,
    (exec cfg s ⟨now, .extend w ids d⟩).1 = .lost lost → ∀ id ∈ ids, id ∉ lost → ∀ queues limit,
    Held (afterReap cfg (exec cfg s ⟨now, .extend w ids d⟩).2 now queues limit) id w

/-- After a job was enqueued under a unique key with the window `d`, a second one with this key and
the window `d'` is refused at the same server time. -/
def UniqueHolds (d d' : Duration) : Prop :=
  ∀ h s, (machine cfg).Run (fun _ _ _ ↦ True) h s → ∀ now newID wall j newID' wall' j' stored,
    j.uniqueKey ≠ "" → j.uniqueTTL = d →
    j'.queue ≠ "" → j'.type ≠ "" → j'.uniqueKey = j.uniqueKey → j'.uniqueTTL = d' →
    (exec cfg s ⟨now, .enqueue newID wall (some j)⟩).1 = .stored stored →
    (exec cfg (exec cfg s ⟨now, .enqueue newID wall (some j)⟩).2
      ⟨now, .enqueue newID' wall' (some j')⟩).1 = .failed (.duplicate j.uniqueKey stored.id)

/-- A free lease can be taken for `d`, and is not free at the same server time. -/
def LeaseHolds (d : Duration) : Prop :=
  ∀ h l, (leaseMachine cfg).Run (fun _ _ _ ↦ True) h l → ∀ now name a b,
    name ≠ "" → a ≠ "" → b ≠ "" → a ≠ b → l.live cfg.visible now name = none →
    (acquireLease (l.live cfg.visible now) now name a d).1 = .ok true ∧
    (acquireLease ((acquireLease (l.live cfg.visible now) now name a d).2.live cfg.visible now)
      now name b d).1 = .ok false

end

/-! ### Whole milliseconds -/

variable {cfg : Config} {s : Store} {now : ℤ} {id w q : String} {d d' : Duration} {e : Entry}

theorem milliseconds_pos_iff : 0 < milliseconds d ↔ millisecond ≤ d := by
  have htrunc : ∀ n : ℤ, 0 < n.tdiv (10 ^ 6) ↔ 10 ^ 6 ≤ n := by
    intro n
    rcases le_total 0 n with hn | hn
    · rw [Int.tdiv_eq_ediv_of_nonneg hn]
      omega
    · have hneg : n.tdiv (10 ^ 6) ≤ 0 := by
        rw [← neg_neg n, Int.neg_tdiv, Int.tdiv_eq_ediv_of_nonneg (by omega)]
        omega
      omega
  exact htrunc d

theorem milliseconds_eq_zero (hpos : 0 < d) (hshort : d < millisecond) : milliseconds d = 0 := by
  rw [milliseconds, Int.tdiv_eq_zero_of_lt hpos.le hshort]

/-! ### Claims and renewals -/

open Store Script

/-- A lease that has not expired survives a round of `Reap`. -/
theorem job_reapQueue (hs : Located s) (he : s.job id = some e) (hact : e.hash.state = .active)
    (hlate : now < e.hash.deadline) (q : String) (limit : ℤ) :
    Located (reapQueue s now q limit).2 ∧ (reapQueue s now q limit).2.job id = some e := by
  obtain ⟨-, hsteps⟩ := steps_reapQueue hs now q limit
  refine ⟨hsteps.located, (hsteps.frame id fun ev hmem ↦ ?_).trans he⟩
  obtain ⟨i, hi, heq⟩ := List.mem_map.1 hmem
  obtain ⟨rfl, -⟩ := Prod.mk.inj heq
  rw [reaped] at hi
  split_ifs at hi
  · cases hi
  · cases hi
  · obtain ⟨t, ht, hle⟩ := mem_dueMembers hi
    obtain ⟨e', he', -, -, hdead⟩ := hs.of_lease ht
    obtain rfl : e' = e := Option.some.inj (he'.symm.trans he)
    omega

/-- And a whole `Reap`. -/
theorem job_reap (hs : Located s) (he : s.job id = some e) (hact : e.hash.state = .active)
    (hlate : now < e.hash.deadline) (queues : List String) (limit : ℤ) :
    (reap s now queues limit).2.job id = some e := by
  have hloop : ∀ (queues : List String) (total : ℕ) (s : Store), Located s → s.job id = some e →
      (reapQueues now limit queues total s).2.job id = some e := by
    intro queues
    induction queues with
    | nil => exact fun total s _ he ↦ he
    | cons q queues ih =>
      intro total s hs he
      obtain ⟨hs', he'⟩ := job_reapQueue hs he hact hlate q limit
      rw [reapQueues]
      rcases hround : reapQueue s now q limit with ⟨_ | n, s'⟩ <;> rw [hround] at hs' he'
      · exact he'
      · exact ih _ s' hs' he'
  rw [reap]
  split_ifs
  · exact he
  · exact hloop queues 0 s hs he

/-- The holder of a lease that has not expired still holds it after a `Reap`. -/
theorem held_afterReap (hs : Located s) (he : s.job id = some e) (hact : e.hash.state = .active)
    (howner : e.hash.owner = w) (hlate : now < e.hash.deadline) (queues : List String)
    (limit : ℤ) : Held (afterReap cfg s now queues limit) id w := by
  have hlive : (s.live cfg.visible now).job id = some e := by
    rcases hs.live_job cfg.visible now id with h | ⟨-, e', he', hdone⟩
    · rw [h, he]
    · obtain rfl : e' = e := Option.some.inj (he'.symm.trans he)
      rw [hact] at hdone
      cases hdone
  exact ⟨e, job_reap (hs.live cfg.visible now).1 hlive hact hlate queues limit, hact, howner⟩

/-- The hash of a job that was just claimed. -/
theorem hash_of_claimNext (hs : Located s) {o : ClaimOpts} {h : Hash}
    (hclaim : (claimNext s now o).1 = .ok h) : h.state = .active ∧ h.owner = o.workerID ∧
      h.deadline = now + milliseconds o.visibilityTimeout := by
  rcases claimNext_cases hs now o with ⟨err, heq⟩ | ⟨-, q, -, i, rest, e, -, he, heq⟩
  · rw [heq] at hclaim
    cases hclaim
  · rw [heq] at hclaim
    obtain rfl := Except.ok.inj hclaim
    exact ⟨rfl, rfl, rfl⟩

theorem claimHolds (hd : millisecond ≤ d) : ClaimHolds cfg d := by
  intro h s hrun now o j hvt hreply queues limit
  have hs := (lives_of_fresh hrun).1
  have hseen := (hs.live cfg.visible now).1
  have hafter : Located (exec cfg s ⟨now, .dequeue o⟩).2 :=
    (steps_exec (c := ⟨now, .dequeue o⟩) hs trivial).located
  obtain ⟨h₀, hclaim, hj⟩ := (claimed_iff rfl).1 hreply
  obtain ⟨hact, howner, hdeadline⟩ := hash_of_claimNext hseen hclaim
  change _ = now + _ at hdeadline
  obtain ⟨e, he, rfl⟩ := job_of_claimed (c := ⟨now, .dequeue o⟩) hseen rfl hclaim
  obtain ⟨-, hid, -⟩ := decodeJob_ok hj
  have hpos := milliseconds_pos_iff.2 hd
  rw [hvt] at hdeadline
  rw [hid]
  exact held_afterReap hafter he hact howner (by omega) queues limit

/-- Job `id` is leased to `w` until `deadline`. -/
def Renewed (s : Store) (id w : String) (deadline : ℤ) : Prop :=
  ∃ e, s.job id = some e ∧ e.hash.state = .active ∧ e.hash.owner = w ∧ e.hash.deadline = deadline

theorem renewed_renew {x : String} {deadline : ℤ} (he : s.job x = some e)
    (hact : e.hash.state = .active) (howner : e.hash.owner = w)
    (hid : id = x ∨ Renewed s id w deadline) :
    Renewed (renew s x e.hash deadline) id w deadline := by
  by_cases heq : id = x
  · subst heq
    exact ⟨_, Function.update_self _ _ _, hact, howner, rfl⟩
  · obtain ⟨e', he', hrest⟩ := hid.resolve_left heq
    exact ⟨e', (Function.update_of_ne heq _ _).trans he', hrest⟩

/-- A lease that the loop of `extend.lua` does not report as lost has the new deadline, and keeps it
to the end of the loop. -/
theorem renewed_extend {deadline : ℤ} {ids : List String} : ∀ {s : Store},
    id ∈ ids ∧ id ∉ (Script.extend w deadline ids s).1 ∨ Renewed s id w deadline →
    Renewed (Script.extend w deadline ids s).2 id w deadline := by
  induction ids with
  | nil => exact fun hid ↦ hid.resolve_left fun h ↦ List.not_mem_nil h.1
  | cons x ids ih =>
    intro s hid
    rw [Script.extend] at hid ⊢
    rcases hfence : fence s w x with r | h
    · simp only [hfence, List.mem_cons, not_or] at hid ⊢
      refine ih (hid.imp_left fun hkept ↦ ?_)
      exact ⟨hkept.1.resolve_left hkept.2.1, hkept.2.2⟩
    · obtain ⟨e, he, rfl, hact, howner⟩ := fence_eq_ok.1 hfence
      simp only [hfence, List.mem_cons] at hid ⊢
      refine ih ?_
      rcases hid with ⟨rfl | hmem, hlost⟩ | hrenewed
      · exact .inr (renewed_renew he hact howner (.inl rfl))
      · exact .inl ⟨hmem, hlost⟩
      · exact .inr (renewed_renew he hact howner (.inr hrenewed))

theorem extendHolds (hd : millisecond ≤ d) : ExtendHolds cfg d := by
  intro h s hrun now w ids lost hreply id hid hlost queues limit
  have hs := (lives_of_fresh hrun).1
  have hafter : Located (exec cfg s ⟨now, .extend w ids d⟩).2 :=
    (steps_exec (c := ⟨now, .extend w ids d⟩) hs trivial).located
  have hpos : 0 < milliseconds d := milliseconds_pos_iff.2 hd
  have hd₀ : ¬ d ≤ 0 := not_le.2 (lt_of_lt_of_le (by decide : (0 : ℤ) < millisecond) hd)
  have hrun : extend (s.live cfg.visible now) now w ids d =
      (Script.extend w (now + milliseconds d) ids (s.live cfg.visible now)).map .ok fun s ↦ s := by
    rw [extend, if_neg hd₀, if_neg (List.ne_nil_of_mem hid)]
    rfl
  have hexec : exec cfg s ⟨now, .extend w ids d⟩ =
      (.lost (Script.extend w (now + milliseconds d) ids (s.live cfg.visible now)).1,
        (Script.extend w (now + milliseconds d) ids (s.live cfg.visible now)).2) := by
    simp only [exec, run, seen, hrun]
    rfl
  rw [hexec] at hreply hafter ⊢
  obtain rfl := Reply.lost.inj hreply
  obtain ⟨e, he, hact, howner, hdeadline⟩ := renewed_extend (.inl ⟨hid, hlost⟩)
  exact held_afterReap hafter he hact howner (by omega) queues limit

/-! ### Unique windows and leases -/

/-- The unique window of a job in whole milliseconds is positive unless it was given as a part of a
millisecond. -/
theorem milliseconds_uniqueWindow_pos {j : Job} :
    0 < milliseconds j.uniqueWindow ↔ j.uniqueTTL ≤ 0 ∨ millisecond ≤ j.uniqueTTL := by
  rw [Job.uniqueWindow]
  split_ifs with hdef
  · exact iff_of_true (by decide) (.inl hdef)
  · rw [milliseconds_pos_iff]
    exact ⟨.inr, fun h ↦ h.resolve_left hdef⟩

/-- An accepted job has a queue and a type. -/
theorem named_of_stored {newID : String} {wall : Time} {j stored : Job}
    (hstored : (exec cfg s ⟨now, .enqueue newID wall (some j)⟩).1 = .stored stored) :
    j.queue ≠ "" ∧ j.type ≠ "" := by
  refine ⟨fun hqueue ↦ ?_, fun htype ↦ ?_⟩
  · simp [exec, run, enqueue, hqueue, Reply.of] at hstored
  · by_cases hqueue : j.queue = ""
    · simp [exec, run, enqueue, hqueue, Reply.of] at hstored
    · simp [exec, run, enqueue, hqueue, htype, Reply.of] at hstored

theorem uniqueHolds (hvisible : ∀ now t, now < t → cfg.visible now t = true)
    (hd : millisecond ≤ d) (hd' : d' ≤ 0 ∨ millisecond ≤ d') : UniqueHolds cfg d d' := by
  intro h s hrun now newID wall j newID' wall' j' stored hkey hwin hqueue' htype' hkey' hwin'
    hstored
  obtain ⟨hqueue, htype⟩ := named_of_stored hstored
  have hpos : 0 < milliseconds j.uniqueWindow := milliseconds_uniqueWindow_pos.2 (.inr (hwin ▸ hd))
  have hpos' : 0 < milliseconds j'.uniqueWindow := milliseconds_uniqueWindow_pos.2 (hwin' ▸ hd')
  rcases enqueue_keyed (s.live cfg.visible now) now newID wall hqueue htype hkey hpos with
    ⟨u, -, heq⟩ | ⟨-, accepted, s₁, heq, -, hunique⟩
  · simp [exec, run, seen, heq, Reply.of] at hstored
  · have hexec : exec cfg s ⟨now, .enqueue newID wall (some j)⟩ = (.stored accepted, s₁) := by
      simp only [exec, run, seen, heq]
      rfl
    rw [hexec] at hstored ⊢
    obtain rfl := Reply.stored.inj hstored
    have hheld : (s₁.live cfg.visible now).unique j'.uniqueKey =
        some ⟨accepted.id, now + milliseconds j.uniqueWindow⟩ := by
      simp only [live, hunique, hkey', Function.update_self, Option.filter_some]
      rw [if_pos (hvisible _ _ (by omega))]
    rcases enqueue_keyed (s₁.live cfg.visible now) now newID' wall' hqueue' htype' (hkey' ▸ hkey)
      hpos' with ⟨u, hu, heq'⟩ | ⟨hnone, -⟩
    · obtain rfl := Option.some.inj (hu.symm.trans hheld)
      simp only [exec, run, seen, heq', hkey']
      rfl
    · rw [hheld] at hnone
      cases hnone

theorem leaseHolds (hvisible : ∀ now t, now < t → cfg.visible now t = true)
    (hd : millisecond ≤ d) : LeaseHolds cfg d := by
  intro h l hrun now name a b hname ha hb hne hfree
  have hpos : 0 < milliseconds d := milliseconds_pos_iff.2 hd
  have hd₀ : ¬ d ≤ 0 := not_le.2 (lt_of_lt_of_le (by decide : (0 : ℤ) < millisecond) hd)
  have htaken : acquireLease (l.live cfg.visible now) now name a d =
      (.ok true, Function.update (l.live cfg.visible now) name
        (some ⟨a, now + milliseconds d⟩)) := by
    rw [acquireLease, if_neg (by tauto), if_neg hd₀, leaseAcquire, hfree, setPX,
      if_neg (not_le.2 hpos)]
    rfl
  refine ⟨by rw [htaken], ?_⟩
  have hheld : Leases.live (acquireLease (l.live cfg.visible now) now name a d).2 cfg.visible now
      name = some ⟨a, now + milliseconds d⟩ := by
    simp only [htaken, Leases.live, Function.update_self, Option.filter_some]
    rw [if_pos (hvisible _ _ (by omega))]
  rw [acquireLease, if_neg (by tauto), if_neg hd₀, leaseAcquire, hheld,
    if_neg (by simpa using hne)]

/-! ### Durations that are lost -/

section

variable (cfg) (hpos : 0 < d) (hshort : d < millisecond)

/-- The store with one job on the ready list. -/
def oneReady : Store := (exec cfg empty ⟨0, .enqueue "a" 0 (some (.plain "q" "t" 2))⟩).2

/-- The store with this job claimed for an hour. -/
def oneClaimed : Store := (exec cfg (oneReady cfg) ⟨0, .dequeue ⟨"w", ["q"], hour⟩⟩).2

theorem run_oneReady : (machine cfg).Run (Fresh cfg)
    [⟨empty, ⟨0, .enqueue "a" 0 (some (.plain "q" "t" 2))⟩⟩] (oneReady cfg) := by
  refine .step (M := machine cfg) ⟨0, .enqueue "a" 0 (some (.plain "q" "t" 2))⟩ .start ?_
  simp [Fresh]

theorem run_oneClaimed : (machine cfg).Run (Fresh cfg)
    [⟨oneReady cfg, ⟨0, .dequeue ⟨"w", ["q"], hour⟩⟩⟩,
      ⟨empty, ⟨0, .enqueue "a" 0 (some (.plain "q" "t" 2))⟩⟩] (oneClaimed cfg) := by
  refine .step (M := machine cfg) ⟨0, .dequeue ⟨"w", ["q"], hour⟩⟩ (run_oneReady cfg) ?_
  simp [Fresh]

variable {cfg}

theorem not_held (hstate : (s.job id).map (·.hash.state) = some .pending) : ¬ Held s id w := by
  rintro ⟨e, he, hact, -⟩
  rw [he, Option.map_some, hact] at hstate
  cases hstate

include hpos hshort

/-- A job that was claimed for a part of a millisecond goes back to the ready list at once. -/
theorem not_claimHolds : ¬ ClaimHolds cfg d := by
  have hms := milliseconds_eq_zero hpos hshort
  have hclaim : ∃ j, (exec cfg (oneReady cfg) ⟨0, .dequeue ⟨"w", ["q"], d⟩⟩).1 = .claimed j ∧
      j.id = "a" := by
    simp only [exec, run, dequeue, claimNext, hms, if_neg (not_le.2 hpos)]
    exact ⟨_, rfl, rfl⟩
  have hreaped : ((afterReap cfg (exec cfg (oneReady cfg) ⟨0, .dequeue ⟨"w", ["q"], d⟩⟩).2
      0 ["q"] 1).job "a").map (·.hash.state) = some .pending := by
    simp only [exec, run, dequeue, claimNext, hms, if_neg (not_le.2 hpos)]
    rfl
  obtain ⟨j, hreply, hid⟩ := hclaim
  intro hlaw
  have hheld := hlaw _ _ (run_oneReady cfg) 0 ⟨"w", ["q"], d⟩ j rfl hreply ["q"] 1
  rw [hid] at hheld
  exact not_held hreaped hheld

/-- So does a job whose lease was renewed for a part of a millisecond, even if it had been claimed
for an hour. -/
theorem not_extendHolds : ¬ ExtendHolds cfg d := by
  have hms := milliseconds_eq_zero hpos hshort
  have hreply : (exec cfg (oneClaimed cfg) ⟨0, .extend "w" ["a"] d⟩).1 = .lost [] := by
    simp only [exec, run, extend, hms, if_neg (not_le.2 hpos)]
    rfl
  have hreaped : ((afterReap cfg (exec cfg (oneClaimed cfg) ⟨0, .extend "w" ["a"] d⟩).2
      0 ["q"] 1).job "a").map (·.hash.state) = some .pending := by
    simp only [exec, run, extend, hms, if_neg (not_le.2 hpos)]
    rfl
  intro hlaw
  exact not_held hreaped (hlaw _ _ (run_oneClaimed cfg) 0 "w" ["a"] [] hreply "a"
    List.mem_cons_self List.not_mem_nil ["q"] 1)

/-- A lease for a part of a millisecond is an error, and free as it was. -/
theorem not_leaseHolds : ¬ LeaseHolds cfg d := by
  have hms := milliseconds_eq_zero hpos hshort
  intro hlaw
  have hheld := (hlaw [] _ .start 0 "n" "a" "b" (by decide) (by decide) (by decide) (by decide)
    rfl).1
  rw [acquireLease, if_neg (by decide), if_neg (not_le.2 hpos), hms] at hheld
  cases hheld

end

/-- A job whose window is no whole millisecond long is stored with the unique check off. -/
theorem enqueue_unchecked (s : Store) (now : ℤ) (newID : String) (wall : Time) {j : Job}
    (hqueue : j.queue ≠ "") (htype : j.type ≠ "") (hkey : j.uniqueKey ≠ "")
    (hzero : ¬ 0 < milliseconds j.uniqueWindow) :
    ∃ j' s', enqueue s now newID wall (some j) = (.ok j', s') ∧ s'.unique = s.unique := by
  have hms : uniqueTTL (j.assigned newID) = milliseconds j.uniqueWindow := if_neg hkey
  rcases enqueue_outcome s now newID wall j with
    ⟨hinvalid, -⟩ | ⟨-, ⟨u, hwindow, -⟩ | ⟨-, st, heq⟩⟩
  · exact absurd hinvalid (not_or.2 ⟨hqueue, htype⟩)
  · exact absurd (hms ▸ hwindow) hzero
  · refine ⟨_, _, heq, ?_⟩
    rw [unique_place, takeKey, hms, if_neg hzero]

/-- A job under the unique key `k`, with the window `d`. -/
def keyedJob (k : String) (d : Duration) : Job :=
  { Job.plain "q" "t" 1 with uniqueKey := k, uniqueTTL := d }

/-- Where nobody holds the key, or the check is off, the job is stored. -/
theorem enqueue_keyedJob (s : Store) {k : String} (hk : k ≠ "")
    (hfree : s.unique k = none ∨ ¬ 0 < milliseconds (keyedJob k d).uniqueWindow) :
    ∃ j' s', enqueue s 0 "a" 0 (some (keyedJob k d)) = (.ok j', s') ∧
      (¬ 0 < milliseconds (keyedJob k d).uniqueWindow → s'.unique = s.unique) := by
  have hqueue : (keyedJob k d).queue ≠ "" := show "q" ≠ "" by decide
  have htype : (keyedJob k d).type ≠ "" := show "t" ≠ "" by decide
  by_cases hcheck : 0 < milliseconds (keyedJob k d).uniqueWindow
  · have hnone := hfree.resolve_right (not_not_intro hcheck)
    rcases enqueue_keyed s 0 "a" 0 (j := keyedJob k d) hqueue htype hk hcheck with
      ⟨u, hu, -⟩ | ⟨-, j', s', heq, -⟩
    · cases hnone.symm.trans hu
    · exact ⟨j', s', heq, fun hnot ↦ absurd hcheck hnot⟩
  · obtain ⟨j', s', heq, hunique⟩ :=
      enqueue_unchecked s 0 "a" 0 (j := keyedJob k d) hqueue htype hk hcheck
    exact ⟨j', s', heq, fun _ ↦ hunique⟩

/-- A job whose window is lost leaves the key free, and one whose own window is lost does not look
at it. -/
theorem not_uniqueHolds (hpos : 0 < d)
    (hshort : d < millisecond ∨ 0 < d' ∧ d' < millisecond) : ¬ UniqueHolds cfg d d' := by
  have hoff : ∀ {d : Duration}, 0 < d → d < millisecond →
      ¬ 0 < milliseconds (keyedJob "k" d).uniqueWindow := by
    intro d hpos hshort hcheck
    exact (milliseconds_uniqueWindow_pos.1 hcheck).elim (not_le.2 hpos) (not_le.2 hshort)
  obtain ⟨j, s₁, hfirst, hsame⟩ :=
    enqueue_keyedJob (d := d) (empty.live cfg.visible 0) (k := "k") (by decide) (.inl rfl)
  have hfree : (s₁.live cfg.visible 0).unique "k" = none ∨
      ¬ 0 < milliseconds (keyedJob "k" d').uniqueWindow := by
    rcases hshort with hshort | ⟨hpos', hshort'⟩
    · refine .inl ?_
      rw [live, hsame (hoff hpos hshort)]
      rfl
    · exact .inr (hoff hpos' hshort')
  obtain ⟨j', s₂, hsecond, -⟩ := enqueue_keyedJob (s₁.live cfg.visible 0) (by decide) hfree
  have hexec : exec cfg empty ⟨0, .enqueue "a" 0 (some (keyedJob "k" d))⟩ = (.stored j, s₁) := by
    simp only [exec, run, seen, hfirst]
    rfl
  have hexec' : exec cfg s₁ ⟨0, .enqueue "a" 0 (some (keyedJob "k" d'))⟩ = (.stored j', s₂) := by
    simp only [exec, run, seen, hsecond]
    rfl
  intro hlaw
  have hrefused := hlaw [] _ .start 0 "a" 0 (keyedJob "k" d) "a" 0 (keyedJob "k" d') j
    (show "k" ≠ "" by decide) rfl (show "q" ≠ "" by decide) (show "t" ≠ "" by decide) rfl rfl
    (congrArg Prod.fst hexec)
  have hstored : (exec cfg (exec cfg empty ⟨0, .enqueue "a" 0 (some (keyedJob "k" d))⟩).2
      ⟨0, .enqueue "a" 0 (some (keyedJob "k" d'))⟩).1 = .stored j' := by
    rw [hexec, hexec']
  cases hstored.symm.trans hrefused

/-- **Positive durations have their effect exactly if they are a millisecond or longer**, as long as
keys are visible before they expire. -/
theorem durations_take_effect_iff (hvisible : ∀ now t, now < t → cfg.visible now t = true)
    (hd : 0 < d) :
    (ClaimHolds cfg d ↔ millisecond ≤ d) ∧ (ExtendHolds cfg d ↔ millisecond ≤ d) ∧
    (∀ d', UniqueHolds cfg d d' ↔ millisecond ≤ d ∧ (d' ≤ 0 ∨ millisecond ≤ d')) ∧
    (LeaseHolds cfg d ↔ millisecond ≤ d) := by
  refine ⟨⟨fun h ↦ ?_, claimHolds⟩, ⟨fun h ↦ ?_, extendHolds⟩, fun d' ↦ ⟨fun h ↦ ?_, fun h ↦ ?_⟩,
    ⟨fun h ↦ ?_, leaseHolds hvisible⟩⟩
  · exact not_lt.1 fun hshort ↦ not_claimHolds hd hshort h
  · exact not_lt.1 fun hshort ↦ not_extendHolds hd hshort h
  · by_contra hnot
    refine not_uniqueHolds hd ?_ h
    rw [not_and_or, not_or, not_le, not_le, not_le] at hnot
    exact hnot
  · exact uniqueHolds hvisible h.1 h.2
  · exact not_lt.1 fun hshort ↦ not_leaseHolds hd hshort h

/-- A millisecond is enough, in the default configuration. -/
theorem durations_take_effect_iff_millisecond :
    (∀ now t, now < t → Config.default.visible now t = true) ∧ 0 < millisecond ∧
    ClaimHolds .default millisecond ∧ ExtendHolds .default millisecond ∧
    UniqueHolds .default millisecond millisecond ∧ LeaseHolds .default millisecond := by
  have hvisible : ∀ now t, now < t → Config.default.visible now t = true :=
    fun _ _ h ↦ decide_eq_true h
  have hpos : 0 < millisecond := by decide
  obtain ⟨hclaim, hextend, hunique, hlease⟩ := durations_take_effect_iff hvisible hpos
  exact ⟨hvisible, hpos, hclaim.2 le_rfl, hextend.2 le_rfl,
    (hunique millisecond).2 ⟨le_rfl, .inr le_rfl⟩, hlease.2 le_rfl⟩

/-- A nanosecond passes every check of the Go side, and none of the laws holds for it: a job that
was claimed or renewed for it goes back to the ready list at once, a unique window of it does not
keep the same job out, and a free lease cannot be had for it. -/
theorem nanosecond_is_lost : ¬ ClaimHolds .default 1 ∧ ¬ ExtendHolds .default 1 ∧
    ¬ UniqueHolds .default 1 1 ∧ ¬ LeaseHolds .default 1 := by
  have hshort : (1 : Duration) < millisecond := by decide
  exact ⟨not_claimHolds (by decide) hshort, not_extendHolds (by decide) hshort,
    not_uniqueHolds (by decide) (.inl hshort), not_leaseHolds (by decide) hshort⟩

end TaskQueue.Redis
