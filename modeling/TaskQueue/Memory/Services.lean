import TaskQueue.Memory.Kept

/-!
# Named leases and the cron store of the in-memory broker

Besides jobs the in-memory broker keeps two small tables: the named leases schedulers elect a leader
with, and the fire times of the cron entries. The operations about jobs never touch either, so what
a call can do to a lease, or to an entry, is said once here and every property of a whole run is
derived from that.

## The leader lease

`AcquireLease` is also how a holder renews, and a renewal may **shorten** the lease; `ReleaseLease`
is fenced on the owner and not on the expiry. `lookup_lease_exec` lists the three things a call can
do to a lease. Mutual exclusion then needs no invariant of the broker at all: as long as the holder
neither releases the lease nor renews it to a time that is too early, it stays in the table under
the holder's name, and an `AcquireLease` by somebody else is refused.
-/

namespace TaskQueue.Memory

open Broker

variable {b : Broker} {c : Call} {t : Turn Broker Call} {h newer older : List (Turn Broker Call)}
  {n a : String} {e ttl : ℤ}

/-! ### What a call can do to a lease -/

/-- An `AcquireLease` that wins writes the lease, and found it free: absent, lapsed, or its own. -/
theorem acquireLease_cases (b : Broker) (now : Time) (n a : String) (ttl : Duration) :
    ((b.acquireLease now n a ttl).1 ≠ .ok true ∧ (b.acquireLease now n a ttl).2 = b) ∨
    ((b.acquireLease now n a ttl).1 = .ok true ∧
      (b.acquireLease now n a ttl).2 = { b with leases := b.leases.insert n ⟨a, now + ttl⟩ } ∧
      ∀ e, b.leases.lookup n = some e → now < e.expiresAt → e.owner = a) := by
  rw [acquireLease]
  split_ifs
  · exact .inl ⟨by simp, rfl⟩
  · exact .inl ⟨by simp, rfl⟩
  · exact .inl ⟨by simp, rfl⟩
  · dsimp only
    split_ifs with htaken
    · exact .inl ⟨by simp, rfl⟩
    · refine .inr ⟨rfl, rfl, fun e he hlive ↦ ?_⟩
      by_contra hne
      simp [he, hlive, hne] at htaken

/-- A `ReleaseLease` by the recorded owner deletes the lease, and any other changes nothing. -/
theorem releaseLease_cases (b : Broker) (n a : String) :
    (b.releaseLease n a).2 = b ∨
    ((b.releaseLease n a).1 = .ok () ∧
      (b.releaseLease n a).2 = { b with leases := b.leases.erase n } ∧
      ∃ e, b.leases.lookup n = some e ∧ e.owner = a) := by
  rw [releaseLease]
  split_ifs
  · exact .inl rfl
  · rcases he : b.leases.lookup n with - | e
    · exact .inl rfl
    · dsimp only
      split_ifs with howner
      · exact .inr ⟨rfl, rfl, e, rfl, howner⟩
      · exact .inl rfl

/-- **What a call can do to the lease `n`**: leave it as it is, grant it to whom it may be granted,
or delete it for its owner. -/
theorem lookup_lease_exec (b : Broker) (c : Call) (n : String) :
    (exec b c).2.leases.lookup n = b.leases.lookup n ∨
    (∃ a ttl, c.op = .acquireLease n a ttl ∧ (exec b c).1 = .won true ∧
      (exec b c).2.leases.lookup n = some ⟨a, c.now + ttl⟩ ∧
      ∀ e, b.leases.lookup n = some e → c.now < e.expiresAt → e.owner = a) ∨
    ∃ a e, c.op = .releaseLease n a ∧ (exec b c).1 = .done ∧ b.leases.lookup n = some e ∧
      e.owner = a := by
  obtain ⟨now, op⟩ := c
  cases op with
  | acquireLease m a ttl =>
    rcases acquireLease_cases b now m a ttl with ⟨-, hsame⟩ | ⟨hwon, hwrite, hfree⟩
    · exact .inl (congrArg (fun b : Broker ↦ b.leases.lookup n) hsame)
    · by_cases hm : m = n
      · subst hm
        refine .inr (.inl ⟨a, ttl, rfl, ?_, ?_, hfree⟩)
        · simp [exec, hwon, Reply.of]
        · show (b.acquireLease now m a ttl).2.leases.lookup m = _
          rw [hwrite]
          exact AList.lookup_insert _
      · refine .inl ?_
        show (b.acquireLease now m a ttl).2.leases.lookup n = _
        rw [hwrite]
        exact AList.lookup_insert_ne (Ne.symm hm)
  | releaseLease m a =>
    rcases releaseLease_cases b m a with hsame | ⟨hok, hwrite, e, he, howner⟩
    · exact .inl (congrArg (fun b : Broker ↦ b.leases.lookup n) hsame)
    · by_cases hm : m = n
      · subst hm
        exact .inr (.inr ⟨a, e, rfl, by simp [exec, hok, Reply.of], he, howner⟩)
      · refine .inl ?_
        show (b.releaseLease m a).2.leases.lookup n = _
        rw [hwrite]
        exact AList.lookup_erase_ne (Ne.symm hm)
  | scheduleCronIfAbsent i t =>
    refine .inl ?_
    show (b.scheduleCronIfAbsent i t).2.leases.lookup n = _
    rw [scheduleCronIfAbsent]
    split_ifs <;> rfl
  | claimCron i t t' =>
    refine .inl ?_
    show (b.claimCron i t t').2.leases.lookup n = _
    rw [claimCron]
    split_ifs <;> rfl
  | removeCron i =>
    refine .inl ?_
    show (b.removeCron i).2.leases.lookup n = _
    rw [removeCron]
    split_ifs <;> rfl
  | _ => exact .inl (by rw [(services_exec rfl).1])

/-! ### What a call can do to a cron entry -/

/-- A `ClaimCron` that wins found the entry at the time it fired and advances it. -/
theorem claimCron_cases (b : Broker) (i : String) (f f' : Time) :
    ((b.claimCron i f f').1 ≠ .ok true ∧ (b.claimCron i f f').2 = b) ∨
    ((b.claimCron i f f').1 = .ok true ∧ b.cron.lookup i = some f ∧
      (b.claimCron i f f').2 = { b with cron := b.cron.insert i f' }) := by
  rw [claimCron]
  split_ifs with hclosed hfire
  · exact .inl ⟨by simp, rfl⟩
  · exact .inr ⟨rfl, hfire, rfl⟩
  · exact .inl ⟨by simp, rfl⟩

/-- A `ScheduleCronIfAbsent` writes an entry only if there is none. -/
theorem scheduleCronIfAbsent_cases (b : Broker) (i : String) (f : Time) :
    (b.scheduleCronIfAbsent i f).2 = b ∨ b.cron.lookup i = none ∧
      (b.scheduleCronIfAbsent i f).2 = { b with cron := b.cron.insert i f } := by
  rw [scheduleCronIfAbsent]
  split_ifs with hid hclosed hsome
  · exact .inl rfl
  · exact .inl rfl
  · exact .inl rfl
  · exact .inr ⟨Option.not_isSome_iff_eq_none.1 hsome, rfl⟩

/-- **What a call can do to the cron entry `i`**: leave it as it is, seed it if it is absent,
advance it from the time the caller saw, or remove it. -/
theorem lookup_cron_exec (b : Broker) (c : Call) (i : String) :
    (exec b c).2.cron.lookup i = b.cron.lookup i ∨ b.cron.lookup i = none ∨
    (∃ f f', c.op = .claimCron i f f' ∧ b.cron.lookup i = some f ∧
      (exec b c).2.cron.lookup i = some f') ∨ c.op = .removeCron i := by
  obtain ⟨now, op⟩ := c
  cases op with
  | scheduleCronIfAbsent k f =>
    rcases scheduleCronIfAbsent_cases b k f with hsame | ⟨hnone, hwrite⟩
    · exact .inl (congrArg (fun b : Broker ↦ b.cron.lookup i) hsame)
    · by_cases hk : k = i
      · exact .inr (.inl (hk ▸ hnone))
      · refine .inl ?_
        show (b.scheduleCronIfAbsent k f).2.cron.lookup i = _
        rw [hwrite]
        exact AList.lookup_insert_ne (Ne.symm hk)
  | claimCron k f f' =>
    rcases claimCron_cases b k f f' with ⟨-, hsame⟩ | ⟨-, hfire, hwrite⟩
    · exact .inl (congrArg (fun b : Broker ↦ b.cron.lookup i) hsame)
    · by_cases hk : k = i
      · subst hk
        refine .inr (.inr (.inl ⟨f, f', rfl, hfire, ?_⟩))
        show (b.claimCron k f f').2.cron.lookup k = _
        rw [hwrite]
        exact AList.lookup_insert _
      · refine .inl ?_
        show (b.claimCron k f f').2.cron.lookup i = _
        rw [hwrite]
        exact AList.lookup_insert_ne (Ne.symm hk)
  | removeCron k =>
    by_cases hk : k = i
    · exact .inr (.inr (.inr (hk ▸ rfl)))
    · refine .inl ?_
      show (b.removeCron k).2.cron.lookup i = _
      rw [removeCron]
      split_ifs
      · rfl
      · exact AList.lookup_erase_ne (Ne.symm hk)
  | acquireLease m a ttl =>
    refine .inl ?_
    show (b.acquireLease now m a ttl).2.cron.lookup i = _
    rcases acquireLease_cases b now m a ttl with ⟨-, hsame⟩ | ⟨-, hwrite, -⟩
    · rw [hsame]
    · rw [hwrite]
  | releaseLease m a =>
    refine .inl ?_
    show (b.releaseLease m a).2.cron.lookup i = _
    rcases releaseLease_cases b m a with hsame | ⟨-, hwrite, -⟩
    · rw [hsame]
    · rw [hwrite]
  | _ => exact .inl (by rw [(services_exec rfl).2])

/-- A `ClaimCron` that returns true advanced the entry from the time the caller saw. -/
theorem claimCron_won {i : String} {f f' : Time} (hop : c.op = .claimCron i f f')
    (hwon : (exec b c).1 = .won true) :
    b.cron.lookup i = some f ∧ (exec b c).2.cron.lookup i = some f' := by
  simp only [exec, hop, Prod.map_fst, Prod.map_snd, id] at hwon ⊢
  rcases claimCron_cases b i f f' with ⟨hlost, -⟩ | ⟨-, hfire, hwrite⟩
  · refine absurd ?_ hlost
    rcases hr : (b.claimCron i f f').1 with e | yes
    · rw [hr] at hwon
      cases hwon
    · rw [hr] at hwon
      rw [Reply.won.inj hwon]
  · rw [hwrite]
    exact ⟨hfire, AList.lookup_insert _⟩

/-! ### The leader lease is exclusive -/

/-- An `AcquireLease` of `n` by `a` returned true. -/
def Acquires (t : Turn Broker Call) (n a : String) (ttl : Duration) : Prop :=
  t.input.op = .acquireLease n a ttl ∧ reply t = .won true

/-- A `ReleaseLease` of `n` by `a` returned without an error. -/
def Releases (t : Turn Broker Call) (n a : String) : Prop :=
  t.input.op = .releaseLease n a ∧ reply t = .done

/-- The runs whose clock does not go back. -/
def Clocked (h : List (Turn Broker Call)) (_ : Broker) (c : Call) : Prop :=
  ∀ t ∈ h, t.input.now ≤ c.now

/-- A turn that acquires the lease wrote it, and found it free or its own. -/
theorem Acquires.spec (hacq : Acquires t n a ttl) :
    (machine.after t).leases.lookup n = some ⟨a, t.input.now + ttl⟩ ∧
      ∀ e, t.before.leases.lookup n = some e → t.input.now < e.expiresAt → e.owner = a := by
  obtain ⟨hop, hwon⟩ := hacq
  have hexec : exec t.before t.input =
      (t.before.acquireLease t.input.now n a ttl).map (.of .won) id := by
    rw [exec, hop]
  rcases acquireLease_cases t.before t.input.now n a ttl with ⟨hno, -⟩ | ⟨-, hwrite, hfree⟩
  · exfalso
    rw [reply, hexec] at hwon
    rcases hr : (t.before.acquireLease t.input.now n a ttl).1 with err | yes
    · simp [hr, Reply.of] at hwon
    · simp only [Prod.map_fst, hr, Reply.of, Reply.won.injEq] at hwon
      exact hno (hr.trans (congrArg Except.ok hwon))
  · refine ⟨?_, hfree⟩
    show (exec t.before t.input).2.leases.lookup n = _
    rw [hexec, Prod.map_snd, id_eq, hwrite]
    exact AList.lookup_insert _

/-- **One call.** Nobody but the holder of a live lease changes it. -/
theorem lease_of_other (hheld : b.leases.lookup n = some ⟨a, e⟩) (hlive : c.now < e)
    (hacq : ∀ ttl, c.op ≠ .acquireLease n a ttl) (hrel : c.op ≠ .releaseLease n a) :
    (exec b c).2.leases.lookup n = some ⟨a, e⟩ := by
  rcases lookup_lease_exec b c n with hsame | ⟨a', ttl, hop, -, -, hfree⟩ |
    ⟨a', e', hop, -, he', howner⟩
  · exact hsame.trans hheld
  · obtain rfl : a = a' := hfree _ hheld hlive
    exact absurd hop (hacq ttl)
  · rw [hheld] at he'
    cases he'
    subst howner
    exact absurd hop hrel

/-- **A whole run.** A lease that was granted until after `T` is held until after `T` as long as the
holder neither releases it nor renews it to a time up to `T`. -/
theorem lease_of_quiet {granted : Turn Broker Call} {T : Time} (hgrant : Acquires granted n a ttl)
    (hT : T < granted.input.now + ttl) :
    ∀ {between : List (Turn Broker Call)} {b : Broker},
      machine.Run Clocked (between ++ granted :: older) b → (∀ t ∈ between, t.input.now ≤ T) →
      (∀ t ∈ between, ¬ Releases t n a) →
      (∀ t ∈ between, ∀ ttl', Acquires t n a ttl' → T < t.input.now + ttl') →
      ∃ e, b.leases.lookup n = some ⟨a, e⟩ ∧ T < e := by
  intro between
  induction between with
  | nil =>
    intro b hrun _ _ _
    obtain ⟨-, -, rfl⟩ := hrun.of_cons
    exact ⟨_, hgrant.spec.1, hT⟩
  | cons t between ih =>
    intro b hrun hclock hrel hacq
    obtain ⟨hprev, -, rfl⟩ := hrun.of_cons
    obtain ⟨e, he, hTe⟩ := ih hprev (fun t ht ↦ hclock t (List.mem_cons_of_mem _ ht))
      (fun t ht ↦ hrel t (List.mem_cons_of_mem _ ht))
      (fun t ht ↦ hacq t (List.mem_cons_of_mem _ ht))
    have hlive : t.input.now < e := (hclock t List.mem_cons_self).trans_lt hTe
    rcases lookup_lease_exec t.before t.input n with hsame | ⟨a', ttl', hop, hwon, hnow, hfree⟩ |
      ⟨a', e', hop, hdone, he', howner⟩
    · exact ⟨e, hsame.trans he, hTe⟩
    · obtain rfl : a = a' := hfree _ he hlive
      exact ⟨_, hnow, hacq t List.mem_cons_self ttl' ⟨hop, hwon⟩⟩
    · rw [he] at he'
      cases he'
      subst howner
      exact absurd ⟨hop, hdone⟩ (hrel t List.mem_cons_self)

/-- **The leader lease is exclusive.** If `a` acquired the lease `n` and somebody else acquires it
before `a`'s term is over, then in between `a` released it or renewed it to a time that had come.
And no call but an `AcquireLease` or `ReleaseLease` of `n` by `a` changes a live lease of `a`,
neither its holder nor its expiry. -/
theorem leader_lease_exclusive (n a : String) :
    (∀ {granted taken : Turn Broker Call} {between older : List (Turn Broker Call)} {b : Broker}
        {a' : String} {ttl ttl' : Duration},
      machine.Run Clocked (taken :: (between ++ granted :: older)) b →
      Acquires granted n a ttl → Acquires taken n a' ttl' → a' ≠ a →
      taken.input.now < granted.input.now + ttl →
      ∃ t ∈ between, Releases t n a ∨
        ∃ ttl'', Acquires t n a ttl'' ∧ t.input.now + ttl'' ≤ taken.input.now) ∧
    ∀ (b : Broker) (c : Call) (e : Time), b.leases.lookup n = some ⟨a, e⟩ → c.now < e →
      (∀ ttl, c.op ≠ .acquireLease n a ttl) → c.op ≠ .releaseLease n a →
      (exec b c).2.leases.lookup n = some ⟨a, e⟩ := by
  refine ⟨?_, fun b c e hheld hlive hacq hrel ↦ lease_of_other hheld hlive hacq hrel⟩
  intro granted taken between older b a' ttl ttl' hrun hgrant htake hne hbefore
  obtain ⟨hprev, hclock, -⟩ := hrun.of_cons
  by_contra hquiet
  obtain ⟨e, he, hlate⟩ := lease_of_quiet hgrant hbefore hprev
    (fun t ht ↦ hclock t (List.mem_append_left _ ht))
    (fun t ht hrel ↦ hquiet ⟨t, ht, .inl hrel⟩)
    (fun t ht ttl'' hacq ↦ not_le.1 fun hle ↦ hquiet ⟨t, ht, .inr ⟨ttl'', hacq, hle⟩⟩)
  exact hne (htake.spec.2 _ he hlate).symm

/-- The exception is real: `a` acquires the lease until 100 and renews it to 12, `b` takes it over
at 20, and a late release by `a` then leaves `b`'s lease as it is. -/
theorem leader_lease_exclusive_shortened :
    ∃ (granted taken : Turn Broker Call) (between older : List (Turn Broker Call)) (b : Broker),
      machine.Run Clocked (taken :: (between ++ granted :: older)) b ∧
      Acquires granted "leader" "a" 100 ∧ Acquires taken "leader" "b" 50 ∧
      taken.input.now < granted.input.now + 100 ∧
      (∃ t ∈ between, Releases t "leader" "a" ∨
        ∃ ttl, Acquires t "leader" "a" ttl ∧ t.input.now + ttl ≤ taken.input.now) ∧
      (exec b ⟨30, .releaseLease "leader" "a"⟩).2.leases.lookup "leader" = some ⟨"b", 70⟩ := by
  let c₁ : Call := ⟨0, .acquireLease "leader" "a" 100⟩
  let c₂ : Call := ⟨2, .acquireLease "leader" "a" 10⟩
  let c₃ : Call := ⟨20, .acquireLease "leader" "b" 50⟩
  let b₁ := machine.next new c₁
  let b₂ := machine.next b₁ c₂
  have hrun : machine.Run Clocked (⟨b₂, c₃⟩ :: ([⟨b₁, c₂⟩] ++ ⟨new, c₁⟩ :: []))
      (machine.next b₂ c₃) :=
    .step c₃ (.step c₂ (.step c₁ .start (by simp [Clocked])) (by simp [Clocked, c₁, c₂]))
      (by simp [Clocked, c₁, c₂, c₃])
  have hgrant : Acquires ⟨new, c₁⟩ "leader" "a" 100 := ⟨rfl, rfl⟩
  have htake : Acquires ⟨b₂, c₃⟩ "leader" "b" 50 := ⟨rfl, rfl⟩
  refine ⟨⟨new, c₁⟩, ⟨b₂, c₃⟩, [⟨b₁, c₂⟩], [], _, hrun, hgrant, htake, by decide,
    (leader_lease_exclusive "leader" "a").1 hrun hgrant htake (by decide) (by decide), ?_⟩
  exact (leader_lease_exclusive "leader" "b").2 _ _ 70 rfl (by decide) (by simp) (by simp)

end TaskQueue.Memory
