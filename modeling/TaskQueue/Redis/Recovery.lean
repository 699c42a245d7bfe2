import TaskQueue.Delivery
import TaskQueue.Phases
import TaskQueue.Redis.Durations
import TaskQueue.Server.Loops
import TaskQueue.Transition.Backlog

/-!
# How long an orphan waits

A worker that dies leaves its leases behind. They run out, and the jobs are recovered by the sweeps
that the other servers make in `reapLoop`: one call of `reap.lua` ends the expired leases of a queue
in order, a limited number of them. Other calls come in between, of any kind and from anyone.

What bounds the wait is that **nothing comes in ahead of a lease that has run out**. The leases
ahead of it end earlier; a claim or a renewal makes one that ends no earlier than now. So the leases
ahead of it only get fewer, and every sweep that does not come to it ends as many of them as it may
(`ahead_of_exec`). The holder being silent, nothing but a sweep ends it, and what a sweep makes of
the job is known (`orphan_recovered`).

With the pace of the loop (`TaskQueue.Server.Loops`) this is a time. `Config` promises a recovery
after about one and a half visibility timeouts: one for the lease to run out, and half of one for
the next sweep. That is so if fewer leases than a batch are ahead of it, and each further batch
costs another interval (`orphan_recovered_in_time`).
-/

namespace TaskQueue.Redis

open Keyed Store Script

variable {cfg : Config} {s s₀ : Store} {c : Call} {t : Turn Store Call}
  {newer older : List (Turn Store Call)} {id q w : String} {l : Life} {d : ℤ}

/-! ### What a call leaves of a job -/

/-- A job whose life shows after a call is as it was before, or the last thing the call did to it
made it so. -/
theorem life_of_exec (hs : Located s) (hsafe : Safe (seen cfg s c) c.op)
    (hl : (exec cfg s c).2.life id = some l) :
    eventsAt id (events cfg s c) = [] ∧ s.life id = some l ∨
      ∃ ev, (id, ev) ∈ events cfg s c ∧ ∃ o, Life.advance spent o ev = some (some l) := by
  obtain ⟨o, hfold, hshown⟩ := fold_of_exec hs hsafe id
  rw [hl] at hshown
  rw [hshown.eq_of_some] at hfold
  rcases Life.last_of_fold hfold with ⟨hnone, hsame⟩ | ⟨ev, hev, o₁, hadv⟩
  · have hseen := (hs.live cfg.visible c.now).2 id
    rw [show (s.live cfg.visible c.now).life id = some l from hsame] at hseen
    exact .inl ⟨hnone, hseen.eq_of_some⟩
  · exact .inr ⟨ev, mem_eventsAt.1 hev, o₁, hadv⟩

/-- A job that is not done does not expire. -/
theorem seen_life (cfg : Config) (c : Call) (hs : Located s) (hl : s.life id = some l)
    (hndone : l.phase ≠ .done) : (seen cfg s c).life id = some l := by
  rcases (hs.live cfg.visible c.now).2 id with heq | ⟨-, l', hl', hdone⟩
  · exact heq.trans hl
  · rw [hl] at hl'
    cases hl'
    exact absurd hdone hndone

/-- What a call did to a job that was not done, and where that left it. -/
theorem fold_of_life (hs : Located s) (hsafe : Safe (seen cfg s c) c.op) (hl : s.life id = some l)
    (hndone : l.phase ≠ .done) : ∃ o,
      (eventsAt id (events cfg s c)).foldlM (Life.advance spent) (some l) = some o ∧
      Life.Shown o ((exec cfg s c).2.life id) := by
  rw [← seen_life cfg c hs hl hndone]
  exact fold_of_exec hs hsafe id

/-! ### Leases -/

theorem lease_iff (hs : Located s) : (s.active q).lookup id = some d ↔
    ∃ l w, s.life id = some l ∧ l.queue = q ∧ l.phase = .active w d := by
  constructor
  · intro hlook
    obtain ⟨e, he, hact, rfl, rfl⟩ := hs.of_lease hlook
    exact ⟨_, e.hash.owner, life_eq_some he, rfl, by simp [Store.phase, hact]⟩
  · rintro ⟨l, w, hl, rfl, hphase⟩
    obtain ⟨e, he, rfl⟩ := Option.map_eq_some_iff.1 hl
    have hactive : s.phase id e.hash = .active w d := hphase
    have hact : e.hash.state = .active ∧ e.hash.deadline = d := by
      cases hstate : e.hash.state <;> simp_all [Store.phase]
    obtain ⟨hact, rfl⟩ := hact
    exact hs.leased id e he hact

theorem milliseconds_nonneg {v : Duration} (hv : 0 < v) : 0 ≤ milliseconds v :=
  Int.tdiv_nonneg hv.le (by decide)

theorem deadline_of_claimed (hs : Located s) (hev : (id, .claimed w d) ∈ events cfg s c) :
    c.now ≤ d := by
  obtain ⟨o, h, -, hclaim, -, -, rfl⟩ := mem_events_iff.1 hev
  rw [(hash_of_claimNext (hs.live cfg.visible c.now).1 hclaim).2.2]
  rcases claimNext_script (seen cfg s c) c.now o with ⟨err, heq⟩ | ⟨-, hvt, -⟩
  · rw [heq] at hclaim
    cases hclaim
  · have := milliseconds_nonneg hvt
    omega

theorem deadline_of_extended (hev : (id, .extended w d) ∈ events cfg s c) : c.now ≤ d := by
  obtain ⟨ids, vt, lost, hop, hreply, -, rfl⟩ := mem_events_iff.1 hev
  by_cases hvt : vt ≤ 0
  · rw [exec, hop, run, extend, if_pos hvt] at hreply
    cases hreply
  · have := milliseconds_nonneg (not_le.1 hvt)
    omega

/-- **A lease that is new ends no earlier than now.** -/
theorem lease_of_exec (hs : Located s) (hsafe : Safe (seen cfg s c) c.op)
    (hlook : ((exec cfg s c).2.active q).lookup id = some d) :
    eventsAt id (events cfg s c) = [] ∧ (s.active q).lookup id = some d ∨
      c.now ≤ d ∧ ∃ w,
        (id, .claimed w d) ∈ events cfg s c ∨ (id, .extended w d) ∈ events cfg s c := by
  obtain ⟨l, w, hl, hq, hphase⟩ := (lease_iff (steps_exec hs hsafe).located).1 hlook
  rcases life_of_exec hs hsafe hl with ⟨hquiet, hsame⟩ | ⟨ev, hev, o, hadv⟩
  · exact .inl ⟨hquiet, (lease_iff hs).2 ⟨l, w, hsame, hq, hphase⟩⟩
  · rcases Life.event_of_active hadv hphase with rfl | rfl
    · exact .inr ⟨deadline_of_claimed hs hev, w, .inl hev⟩
    · exact .inr ⟨deadline_of_extended hev, w, .inr hev⟩

/-! ### Sweeps -/

/-- How many expired leases of the queue the turn can end. -/
def sweepOf (q : String) (t : Turn Store Call) : ℕ :=
  match t.input.op with
  | .reap q' limit => if q' = q ∧ reads limit then limit.toNat else 0
  | _ => 0

/-- The leases that are there after a reap are those it did not end. -/
theorem kept_of_reap {q' : String} {limit : ℤ} (hs : Located s) (hop : c.op = .reap q' limit)
    (hlook : ((exec cfg s c).2.active q).lookup id = some d) :
    (s.active q).lookup id = some d ∧ id ∉ reaped (seen cfg s c) c.now q' limit := by
  have hsafe : Safe (seen cfg s c) c.op := by
    rw [hop]
    trivial
  rcases lease_of_exec hs hsafe hlook with ⟨hquiet, hsame⟩ | ⟨-, w, hev | hev⟩
  · refine ⟨hsame, fun hmem ↦ ?_⟩
    have hev : .reaped c.now ∈ eventsAt id (events cfg s c) :=
      mem_eventsAt.2 (mem_events_iff.2 ⟨q', limit, hop, hmem, rfl⟩)
    rw [hquiet] at hev
    cases hev
  · obtain ⟨o, h, hop', -⟩ := mem_events_iff.1 hev
    rw [hop] at hop'
    cases hop'
  · obtain ⟨ids, vt, lost, hop', -⟩ := mem_events_iff.1 hev
    rw [hop] at hop'
    cases hop'

/-- **A lease moves up.** While a lease that has run out stays where it is, nothing comes in ahead
of it, and a sweep that leaves it there ends as many of those ahead of it as it can. -/
theorem ahead_of_exec (hs : Located s) (hsafe : Safe (seen cfg s c) c.op)
    (hlease : (s.active q).lookup id = some d) (hdue : d < c.now)
    (hkept : ((exec cfg s c).2.active q).lookup id = some d) :
    (((exec cfg s c).2.active q).ahead (toLex (d, id))).card + sweepOf q ⟨s, c⟩ ≤
      ((s.active q).ahead (toLex (d, id))).card := by
  have hsub : ((exec cfg s c).2.active q).ahead (toLex (d, id)) ⊆
      (s.active q).ahead (toLex (d, id)) := by
    refine Table.ahead_subset fun k d' hlook ↦ ?_
    exact (lease_of_exec hs hsafe hlook).imp And.right fun hnew ↦ hdue.trans_le hnew.1
  by_cases hop : ∃ limit, c.op = .reap q limit ∧ 0 < limit ∧ reads limit
  · obtain ⟨limit, hop, hpos, hreads⟩ := hop
    have hwork : sweepOf q ⟨s, c⟩ = limit.toNat := by
      simp only [sweepOf, hop, hreads, and_self, if_pos]
    have hreaped : reaped (seen cfg s c) c.now q limit =
        Table.keysOf (((s.active q).due (fun _ ↦ true) c.now).take limit.toNat) := by
      rw [reaped, if_neg (not_le.2 hpos), if_neg (by simp [hreads]), dueMembers, Table.keysOf,
        Table.keysOf, ← List.map_take]
      rfl
    have hgone : ∀ p ∈ ((s.active q).due (fun _ ↦ true) c.now).take limit.toNat,
        ((exec cfg s c).2.active q).lookup (ofLex p).2 ≠ some (ofLex p).1 := by
      intro p hp hlook
      refine (kept_of_reap hs hop hlook).2 ?_
      rw [hreaped]
      exact List.mem_map.2 ⟨p, hp, rfl⟩
    rw [hwork]
    refine Table.card_ahead_add_le (Table.mem_due.2 ⟨hlease, hdue.le, rfl⟩) (fun hmem ↦ ?_) hgone
      hsub
    exact hgone _ hmem hkept
  · have hwork : sweepOf q ⟨s, c⟩ = 0 := by
      rw [sweepOf]
      split
      · next q' limit hop' =>
        split_ifs with hacts
        · obtain ⟨rfl, hreads⟩ := hacts
          exact Int.toNat_of_nonpos (not_lt.1 fun hpos ↦ hop ⟨limit, hop', hpos, hreads⟩)
        · rfl
      · rfl
    rw [hwork]
    exact Finset.card_le_card hsub

/-! ### The end of a lease -/

/-- What ends or changes a lease: its holder reports or renews, or it is reaped. -/
theorem event_of_left (hs : Located s) (hsafe : Safe (seen cfg s c) c.op)
    (hl : s.life id = some l) (hphase : l.phase = .active w d)
    (hleft : (exec cfg s c).2.life id ≠ some l) :
    ∃ ev, (id, ev) ∈ events cfg s c ∧
      (ev.Settles w ∨ (∃ d', ev = .extended w d') ∨ ev = .reaped c.now) := by
  obtain ⟨o, hfold, hshown⟩ := fold_of_life hs hsafe hl (by rw [hphase]; simp)
  rcases hevs : eventsAt id (events cfg s c) with - | ⟨ev, evs⟩
  · obtain rfl : some l = o := by simpa [hevs] using hfold
    rcases hshown with heq | ⟨-, l', ⟨⟩, hdone⟩
    · exact absurd heq hleft
    · rw [hphase] at hdone
      cases hdone
  · rw [hevs, List.foldlM_cons] at hfold
    obtain ⟨o₁, hadv, -⟩ := Option.bind_eq_some_iff.1 hfold
    have hev : (id, ev) ∈ events cfg s c := mem_eventsAt.1 (hevs ▸ List.mem_cons_self)
    refine ⟨ev, hev, ?_⟩
    rcases Life.advance_of_active hphase hadv with hset | ⟨d', rfl, -⟩ | ⟨now, rfl, -⟩
    · exact .inl hset
    · exact .inr (.inl ⟨d', rfl⟩)
    · obtain ⟨-, -, -, -, rfl⟩ := mem_events_iff.1 hev
      exact .inr (.inr rfl)

/-- Only a report of a worker settles a job for it. -/
theorem reports_of_settles {ev : Event} (hev : (id, ev) ∈ events cfg s c) (hset : ev.Settles w) :
    Reports c w id := by
  have hdid := mem_events_iff.1 hev
  cases ev with
  | acked w' =>
    obtain rfl : w' = w := hset
    exact .inl hdid.1
  | nacked w' r =>
    obtain rfl : w' = w := hset
    obtain ⟨retryAt, reason, hop, -⟩ := hdid
    exact .inr (.inl ⟨retryAt, reason, hop⟩)
  | killed w' =>
    obtain rfl : w' = w := hset
    obtain ⟨reason, hop, -⟩ := hdid
    exact .inr (.inr ⟨reason, hop⟩)
  | _ => cases hset

/-- Only a reap ends a lease by expiry. -/
theorem reapsOf_of_reaped {now : ℤ} (hev : (id, .reaped now) ∈ events cfg s c) :
    id ∈ reapsOf cfg ⟨s, c⟩ := by
  obtain ⟨q, limit, hop, hmem, -⟩ := mem_events_iff.1 hev
  simpa only [reapsOf, hop] using hmem

/-- **A lease goes on** if its holder does not report and it is not reaped. -/
theorem active_of_exec (hs : Located s) (hsafe : Safe (seen cfg s c) c.op)
    (hl : s.life id = some l) (hphase : l.phase = .active w d) (hrep : ¬ Reports c w id)
    (hreap : id ∉ reapsOf cfg ⟨s, c⟩) :
    ∃ l' d', (exec cfg s c).2.life id = some l' ∧ l'.phase = .active w d' := by
  obtain ⟨o, hfold, hshown⟩ := fold_of_life hs hsafe hl (by rw [hphase]; simp)
  obtain ⟨l', d', rfl, hphase'⟩ := Life.active_of_fold hfold hphase
    (fun ev hev hset ↦ hrep (reports_of_settles (mem_eventsAt.1 hev) hset))
    fun now hnow ↦ hreap (reapsOf_of_reaped (mem_eventsAt.1 hnow))
  refine ⟨l', d', hshown.resolve_right fun hgone ↦ ?_, hphase'⟩
  obtain ⟨-, _, ⟨⟩, hdone⟩ := hgone
  rw [hphase'] at hdone
  cases hdone

/-- The life of a job whose lease was reaped. -/
def recovered (l : Life) : Life :=
  { l with recoveries := l.recoveries + 1, phase := l.fallTo spent .pending }

/-- **What a reap makes of a job.** -/
theorem life_of_reaped (hs : Located s) (hl : s.life id = some l) (hphase : l.phase = .active w d)
    (hid : id ∈ reapsOf cfg ⟨s, c⟩) : (exec cfg s c).2.life id = some (recovered l) := by
  rw [reapsOf] at hid
  split at hid
  · next q limit hop =>
    have hop : c.op = .reap q limit := hop
    have hsafe : Safe (seen cfg s c) c.op := by rw [hop]; trivial
    have hevents : eventsAt id (events cfg s c) = [.reaped c.now] := by
      have hall : events cfg s c =
          (reaped (seen cfg s c) c.now q limit).map fun i ↦ (i, .reaped c.now) := by
        simp only [events, eventsOf, hop]
      rw [hall, eventsAt_map_const, count_reaped, if_pos hid, List.replicate_one]
    obtain ⟨o, hfold, hshown⟩ := fold_of_life hs hsafe hl (by rw [hphase]; simp)
    have hadv : Life.advance spent (some l) (.reaped c.now) = some o := by
      simpa [hevents] using hfold
    obtain ⟨_, _, _, ⟨⟩, -, -, rfl⟩ := Life.advance_reaped_iff.1 hadv
    refine hshown.resolve_right fun hgone ↦ ?_
    obtain ⟨-, _, ⟨⟩, hdone⟩ := hgone
    exact Life.fallTo_ne_done (by simp) hdone
  · cases hid

/-- The worker neither reports on the job nor renews its lease. -/
def Silent (w id : String) (c : Call) : Prop :=
  ¬ Reports c w id ∧ ∀ ids vt, c.op = .extend w ids vt → id ∉ ids

/-- The lease of a silent worker ends by a reap. -/
theorem reapsOf_of_silent {ev : Event} (hsilent : Silent w id t.input)
    (hev : (id, ev) ∈ events cfg t.before t.input)
    (hcause : ev.Settles w ∨ (∃ d', ev = .extended w d') ∨ ev = .reaped t.input.now) :
    id ∈ reapsOf cfg t := by
  rcases hcause with hset | ⟨d', rfl⟩ | rfl
  · exact absurd (reports_of_settles hev hset) hsilent.1
  · obtain ⟨ids, vt, lost, hop, -, hmem, -⟩ := mem_events_iff.1 hev
    exact absurd (List.mem_of_mem_filter hmem) (hsilent.2 ids vt hop)
  · exact reapsOf_of_reaped hev

/-- **An orphan waits for no more sweeps than the leases ahead of it need.** -/
theorem orphan_recovered (hbefore : (machine cfg).Run (Fresh cfg) older s₀)
    (hrun : (machine cfg).Run (Fresh cfg) (newer ++ older) s)
    (hl : s₀.life id = some l) (hphase : l.phase = .active w d)
    (hexpired : ∀ t ∈ newer, d < t.input.now) (hsilent : ∀ t ∈ newer, Silent w id t.input)
    (hsweeps : ((s₀.active l.queue).ahead (toLex (d, id))).card <
      (newer.map (sweepOf l.queue)).sum) :
    ∃ t ∈ newer, id ∈ reapsOf cfg t ∧ ((machine cfg).after t).life id = some (recovered l) := by
  have hends := Machine.Run.left_or_waits (fun s ↦ s.life id = some l)
    (fun s ↦ ((s.active l.queue).ahead (toLex (d, id))).card) (sweepOf l.queue) hbefore hl hrun
    fun t ht h hrun' hok hwait hwait' ↦ by
      have hs := (lives_of_fresh hrun').1
      have hsafe := hok.safe_of_run hrun'
      exact ahead_of_exec hs hsafe ((lease_iff hs).2 ⟨l, w, hwait, rfl, hphase⟩) (hexpired t ht)
        ((lease_iff (steps_exec hs hsafe).located).2 ⟨l, w, hwait', rfl, hphase⟩)
  rcases hends with ⟨t, ht, ⟨h, hrun', hok⟩, hwait, hleft⟩ | ⟨-, hle⟩
  · have hs := (lives_of_fresh hrun').1
    obtain ⟨ev, hev, hcause⟩ := event_of_left hs (hok.safe_of_run hrun') hwait hphase hleft
    have hreaped := reapsOf_of_silent (hsilent t ht) hev hcause
    exact ⟨t, ht, hreaped, life_of_reaped hs hwait hphase hreaped⟩
  · omega

/-! ### A server that keeps sweeping -/

/-- A loop of a server made its calls in the run `h`: each call of the time line `calls` executed
`op` at an instant between its beginning and its end. -/
structure Loops (calls : List (Time × Time)) (op : Op) (made : List (Turn Store Call × Time))
    (h : List (Turn Store Call)) : Prop where
  within : List.Forall₂ (fun call y ↦ call.1 ≤ y.2 ∧ y.2 ≤ call.2) calls made
  calls : ∀ y ∈ made, y.1.input = ⟨unixMilli y.2, op⟩
  turns : (made.map Prod.fst).reverse.Sublist h

/-- **What a loop gets done after a time.** -/
theorem Loops.mul_le_sum {interval slack : Duration} {start : Time} {rounds : List Server.Round}
    {op : Op} {made : List (Turn Store Call × Time)} (work : Turn Store Call → ℕ) {L n : ℕ}
    (hloop : Loops (Server.calls interval start rounds) op made (newer ++ older))
    (hpos : 0 < interval) (hslack : 0 ≤ slack)
    (hrounds : ∀ r ∈ rounds, r.Within interval slack) (hstart : start < (d + 1) * millisecond)
    (hlong : (d + 1) * millisecond + n * (interval + 2 * slack) ≤
      Server.finish interval start rounds)
    (holder : ∀ t ∈ older, t.input.now ≤ d)
    (hwork : ∀ t ∈ newer, t.input.op = op → L ≤ work t) : n * L ≤ (newer.map work).sum := by
  -- the calls that count are those after `d`; all of them are among the newer turns
  let late (t : Turn Store Call) : Bool := decide (d < t.input.now ∧ L ≤ work t)
  have hgap : 0 < interval + 2 * slack := by linarith
  have hmade : n ≤ made.countP fun y ↦ late y.1 := by
    refine List.le_countP_of_gaps Prod.snd ((d + 1) * millisecond - 1) (interval + 2 * slack) n
      fun i hi ↦ ?_
    have hstart' : start ≤ (d + 1) * millisecond - 1 := Int.le_sub_one_of_lt hstart
    have hi' : (i : ℤ) + 1 ≤ n := by exact_mod_cast hi
    have hzero : 0 ≤ (i : ℤ) * (interval + 2 * slack) :=
      mul_nonneg (Int.natCast_nonneg i) hgap.le
    have hup := mul_le_mul_of_nonneg_right hi' hgap.le
    obtain ⟨y, hy, at_, rfl, hlow, hhigh⟩ := Server.exists_call_in_window
      (fun (y : Turn Store Call × Time) at_ ↦ y.2 = at_)
      ((d + 1) * millisecond - 1 + i * (interval + 2 * slack)) hpos hslack (by linarith) hrounds
      (hloop.within.imp fun _ _ h ↦ ⟨_, rfl, h⟩) (by linarith)
    have hafter : d < y.1.input.now := by
      rw [hloop.calls y hy]
      exact (Int.le_ediv_iff_mul_le (by decide)).2 (Int.le_of_sub_one_lt (by linarith))
    have hnewer : y.1 ∈ newer := by
      have hmem := hloop.turns.subset (List.mem_reverse.2 (List.mem_map_of_mem hy))
      refine (List.mem_append.1 hmem).resolve_right fun hold ↦ ?_
      exact (holder _ hold).not_gt hafter
    refine ⟨y, hy, decide_eq_true ⟨hafter, hwork _ hnewer ?_⟩, hlow, by linarith⟩
    rw [hloop.calls y hy]
  have hnewer : n ≤ newer.countP late := by
    have hold : older.countP late = 0 := List.countP_eq_zero.2 fun t ht hlate ↦
      (holder t ht).not_gt (of_decide_eq_true hlate).1
    calc n ≤ (made.map Prod.fst).countP late := by rwa [List.countP_map]
      _ = (made.map Prod.fst).reverse.countP late := List.countP_reverse.symm
      _ ≤ (newer ++ older).countP late := hloop.turns.countP_le
      _ = newer.countP late := by rw [List.countP_append, hold, Nat.add_zero]
  calc n * L ≤ newer.countP late * L := Nat.mul_le_mul_right L hnewer
    _ ≤ (newer.map work).sum :=
      List.countP_mul_le_sum (fun t ht ↦ (of_decide_eq_true ht).2) newer

/-- **An orphan is recovered in time.** The holder `w` of a lease that ends at `d` has gone silent,
and some server keeps its `reapLoop` running, with a timer and calls that cost at most `slack` a
round. Of the leases of the queue, `r` are ahead of this one when it runs out. Then the job has been
recovered once the loop has run for `r / 100 + 1` intervals and slacks past `d`; with fewer than a
hundred ahead of it, that is half a visibility timeout. -/
theorem orphan_recovered_in_time {vt slack : Duration} {start : Time} {rounds : List Server.Round}
    {made : List (Turn Store Call × Time)}
    (hbefore : (machine cfg).Run (Fresh cfg) older s₀)
    (hrun : (machine cfg).Run (Fresh cfg) (newer ++ older) s)
    (hl : s₀.life id = some l) (hphase : l.phase = .active w d)
    (holder : ∀ t ∈ older, t.input.now ≤ d) (hexpired : ∀ t ∈ newer, d < t.input.now)
    (hsilent : ∀ t ∈ newer, Silent w id t.input) (hslack : 0 ≤ slack)
    (hrounds : ∀ r ∈ rounds, r.Within (Server.reapInterval vt) slack)
    (hstart : start < (d + 1) * millisecond)
    (hloop : Loops (Server.calls (Server.reapInterval vt) start rounds)
      (.reap l.queue Server.reapBatch) made (newer ++ older))
    (hlong : (d + 1) * millisecond +
        (((s₀.active l.queue).ahead (toLex (d, id))).card / 100 + 1 : ℕ) *
          (Server.reapInterval vt + 2 * slack) ≤
      Server.finish (Server.reapInterval vt) start rounds) :
    ∃ t ∈ newer, id ∈ reapsOf cfg t ∧ ((machine cfg).after t).life id = some (recovered l) := by
  refine orphan_recovered hbefore hrun hl hphase hexpired hsilent ?_
  have hdone := hloop.mul_le_sum (sweepOf l.queue) (L := 100) (Server.orSecond_pos _) hslack
    hrounds hstart hlong holder fun t _ hop ↦ by
      simp [sweepOf, hop, Server.reapBatch, reads_of_le]
  omega

/-- A round of a `reapLoop` with a visibility timeout of an hour, and the longest sleep there is. -/
def longRound : Server.Round := ⟨9 * 10 ^ 11 - 1, 0, 0⟩

/-- The first sweep after the lease on the one job has run out. -/
def firstSweep : Turn Store Call := ⟨oneClaimed .default, ⟨5399999, .reap "q" 100⟩⟩

/-- The sweep after it. -/
def secondSweep : Turn Store Call :=
  ⟨(machine .default).after firstSweep, ⟨7199999, .reap "q" 100⟩⟩

theorem orphan_recovered_in_time_hour : ∃ t ∈ [secondSweep, firstSweep], "a" ∈ reapsOf .default t ∧
    ((machine .default).after t).life "a" =
      some (recovered ⟨"q", 2, 1, 0, .active "w" 3600000⟩) := by
  have hloop : Loops (Server.calls (Server.reapInterval hour) (36 * 10 ^ 11) [longRound, longRound])
      (.reap "q" Server.reapBatch) [(firstSweep, 5399999999999), (secondSweep, 7199999999998)]
      ([secondSweep, firstSweep] ++ [⟨oneReady .default, ⟨0, .dequeue ⟨"w", ["q"], hour⟩⟩⟩,
        ⟨empty, ⟨0, .enqueue "a" 0 (some (.plain "q" "t" 2))⟩⟩]) := by
    refine ⟨.cons (by decide) (.cons (by decide) .nil), fun y hy ↦ ?_, by simp⟩
    rcases List.mem_pair.1 hy with rfl | rfl
    · rfl
    · rfl
  refine orphan_recovered_in_time (run_oneClaimed .default)
    (.step _ (.step _ (run_oneClaimed .default) (by simp [Fresh])) (by simp [Fresh])) rfl rfl
    (by simp) (by simp [firstSweep, secondSweep]) (fun t ht ↦ ?_) le_rfl ?_ (by decide) hloop ?_
  · rcases List.mem_pair.1 ht with rfl | rfl <;> simp [Silent, Reports, firstSweep, secondSweep]
  · intro r hr
    rcases List.mem_pair.1 hr with rfl | rfl <;>
      exact ⟨fun _ ↦ by decide, by decide, by decide, by decide⟩
  · decide +kernel

end TaskQueue.Redis
