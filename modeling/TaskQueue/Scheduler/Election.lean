import Mathlib.Data.Fintype.Basic
import TaskQueue.Redis.Durations
import TaskQueue.Scheduler.Model
import TaskQueue.Server.Loops

/-!
# The election of the scheduler

The servers of a deployment elect a **leader** that fires the cron schedules: each of them asks for
one named lease again and again, and believes to be leader for as long as the last answer it got
said so. A belief is not the lease. An answer can be lost after the lease was taken, an error leaves
the flag as it was, and a leader can sit in `fireDueSchedules` while its lease runs out.

The machine of this module is `schedulerLoop` of any number of servers over the leases of one Redis,
with starts, clean stops, crashes, and commands that are not sent or whose answer is lost. The
belief of a server (`Candidate.leader`) and what its commands did to the lease (`Grips`: the last
that it did with the lease was to take it, until a time) are kept apart.

* `key_iff`: while its time is not over, the lease is with the one server that has a grip on it.
* `grips_of_leader`: a server that believes to be leader has such a grip, for at least as long as it
  was ever told.
* `leaders_overlap_after_lapse`: so two leaders at once mean that the term of one of them is over.
* `acquire_succeeds_iff`: and a server is refused exactly while another one has a grip whose time
  is not over, which need not be a leader: a server that took the lease without being told, and then
  stopped, gives nothing back.
-/

namespace TaskQueue.Scheduler.Election

open Redis (Leases LeaseOp LeaseError Config acquireLease releaseLease milliseconds)

/-! ### The lease -/

/-- The name of the lease that elects the cron scheduler. -/
def schedulerLease : String := "scheduler"

/-- How long a leader asks for: three intervals, so that one slow round trip does not cost it the
lead. -/
def leaseTTL (vt : Duration) : Duration := 3 * Server.schedulerInterval vt

/-- Run one operation on the leases its script sees. -/
def runLease (l : Leases) (now : ℤ) : LeaseOp → Except LeaseError Bool × Leases
  | .acquire name owner ttl => acquireLease l now name owner ttl
  | .release name owner => (releaseLease l name owner).map (·.map fun _ ↦ true) id

/-- The lease an operation is about. -/
def leaseOf : LeaseOp → String
  | .acquire name _ _ => name
  | .release name _ => name

variable {l : Leases} {now : ℤ} {name owner n : String} {ttl : Duration}

/-- **What `AcquireLease` can do**: take a lease that is free or the caller's own, or nothing. -/
theorem acquire_cases (l : Leases) (now : ℤ) (name owner : String) (ttl : Duration) :
    (acquireLease l now name owner ttl).1 = .ok true ∧ (∀ k, l name = some k → k.value = owner) ∧
      (acquireLease l now name owner ttl).2 =
        Function.update l name (some ⟨owner, now + milliseconds ttl⟩) ∨
    (acquireLease l now name owner ttl).1 ≠ .ok true ∧
      (acquireLease l now name owner ttl).2 = l := by
  rw [acquireLease]
  split_ifs with hnamed hpos
  · exact .inr ⟨by simp, rfl⟩
  · exact .inr ⟨by simp, rfl⟩
  · rw [Redis.Script.leaseAcquire, Redis.Script.setPX]
    by_cases hfree : (l name).all (fun k ↦ decide (k.value = owner)) = true
    · rw [if_pos hfree]
      split_ifs
      · exact .inr ⟨by simp, rfl⟩
      · refine .inl ⟨rfl, fun k hk ↦ ?_, rfl⟩
        rw [hk] at hfree
        exact of_decide_eq_true hfree
    · rw [if_neg hfree]
      exact .inr ⟨by simp, rfl⟩

/-- What `AcquireLease` answers when it is asked for a millisecond or more. -/
theorem acquire_answer (l : Leases) (now : ℤ) (hname : name ≠ "") (howner : owner ≠ "")
    (httl : millisecond ≤ ttl) :
    (acquireLease l now name owner ttl).1 =
      .ok ((l name).all fun k ↦ decide (k.value = owner)) := by
  have hpos : ¬ ttl ≤ 0 := not_le.2 (lt_of_lt_of_le (by decide : (0 : ℤ) < millisecond) httl)
  rw [acquireLease, if_neg (not_or.2 ⟨hname, howner⟩), if_neg hpos, Redis.Script.leaseAcquire,
    Redis.Script.setPX, if_neg (not_le.2 (Redis.milliseconds_pos_iff.2 httl))]
  by_cases hfree : (l name).all (fun k ↦ decide (k.value = owner)) = true
  · rw [if_pos hfree, hfree]
  · rw [if_neg hfree, Bool.eq_false_of_not_eq_true hfree]

/-- A release leaves the caller without the lease, and everybody else as they were. -/
theorem release_spec (l : Leases) (hname : name ≠ "") (howner : owner ≠ "") :
    (releaseLease l name owner).2 name =
      if (l name).any (fun k ↦ decide (k.value = owner)) = true then none else l name := by
  rw [releaseLease, if_neg (not_or.2 ⟨hname, howner⟩), Redis.Script.leaseRelease]
  dsimp only
  split_ifs
  · exact Function.update_self ..
  · rfl

/-- An operation on one lease leaves the others alone. -/
theorem runLease_of_ne {op : LeaseOp} (hne : n ≠ leaseOf op) : (runLease l now op).2 n = l n := by
  cases op with
  | acquire name owner ttl =>
    rcases acquire_cases l now name owner ttl with ⟨-, -, heq⟩ | ⟨-, heq⟩
    · rw [runLease, heq]
      exact Function.update_of_ne hne ..
    · rw [runLease, heq]
  | release name owner =>
    simp only [runLease, releaseLease, Redis.Script.leaseRelease, Prod.map_snd, id_eq]
    split_ifs
    · rfl
    · exact Function.update_of_ne hne ..
    · rfl

/-! ### The servers -/

/-- What a server brings to the election. -/
structure Peer where
  workerID : String
  visibilityTimeout : Duration
  workerID_ne : workerID ≠ ""

/-- Where a server is in `schedulerLoop`. -/
inductive Stage
  /-- It has not started, or it has returned. -/
  | stopped
  /-- It sleeps, or its `AcquireLease` is under way. -/
  | waiting
  /-- It is in `fireDueSchedules`. -/
  | firing
  deriving DecidableEq

/-- A server: its `leader` flag, and where it is. -/
structure Candidate where
  leader : Bool
  stage : Stage

/-- The leases, and the servers. -/
structure System (ι : Type) where
  leases : Leases
  server : ι → Candidate

/-- What can happen. -/
inductive Move (ι : Type)
  | start (i : ι)
  /-- The interval is over, and the server asks for the lease. -/
  | acquire (i : ι)
  /-- `fireDueSchedules` returns. -/
  | fired (i : ι)
  /-- The context of the loop is cancelled: it gives the lease back if it believes to be leader. -/
  | stop (i : ι)
  /-- The process dies. -/
  | crash (i : ι)
  /-- Somebody uses a lease of another name. -/
  | other (op : LeaseOp)

/-- A move at a server time, and what becomes of its command. -/
structure Input (ι : Type) where
  now : ℤ
  move : Move ι
  fate : Fate

section

variable {ι : Type} (peers : ι → Peer) (cfg : Config)

/-- The `AcquireLease` of a server. -/
def acquireOp (i : ι) : LeaseOp :=
  .acquire schedulerLease (peers i).workerID (leaseTTL (peers i).visibilityTimeout)

/-- The `ReleaseLease` of a server. -/
def releaseOp (i : ι) : LeaseOp := .release schedulerLease (peers i).workerID

/-- The command of a move, if it has one. -/
def command (s : System ι) : Move ι → Option LeaseOp
  | .acquire i => if (s.server i).stage = .waiting then some (acquireOp peers i) else none
  | .stop i =>
    if (s.server i).stage = .waiting ∧ (s.server i).leader then some (releaseOp peers i) else none
  | .other op => some op
  | _ => none

/-- The command that is executed, if any. -/
def executed (s : System ι) (c : Input ι) : Option LeaseOp :=
  if c.fate = .unsent then none else command peers s c.move

/-- The leases after a move. -/
def leasesAfter (s : System ι) (c : Input ι) : Leases :=
  match executed peers s c with
  | some op => (runLease (s.leases.live cfg.visible c.now) c.now op).2
  | none => s.leases

/-- What the server is told; an error of any kind is `none`. -/
def told (s : System ι) (c : Input ι) : Option Bool :=
  if c.fate = .answered then
    (executed peers s c).bind fun op ↦
      (runLease (s.leases.live cfg.visible c.now) c.now op).1.toOption
  else none

/-- What a server does next: `schedulerLoop`. -/
def resume (p : Candidate) (answer : Option Bool) : Move ι → Candidate
  | .start _ => if p.stage = .stopped then ⟨false, .waiting⟩ else p
  | .acquire _ =>
    -- an error changes nothing: the flag keeps what the last answer said
    if p.stage = .waiting then answer.elim p fun held ↦ ⟨held, if held then .firing else .waiting⟩
    else p
  | .fired _ => if p.stage = .firing then { p with stage := .waiting } else p
  | .stop _ => if p.stage = .waiting then ⟨false, .stopped⟩ else p
  | .crash _ => ⟨false, .stopped⟩
  | .other _ => p

/-- The server a move is of. -/
def mover : Move ι → Option ι
  | .start i | .acquire i | .fired i | .stop i | .crash i => some i
  | .other _ => none

omit peers cfg in
/-- A server believes to be leader because it did so and goes on, or because it was just told. -/
theorem leader_resume {p : Candidate} {answer : Option Bool} {m : Move ι}
    (hleader : (resume p answer m).leader = true) :
    p.leader = true ∧ (∀ i, m = .stop i → p.stage ≠ .waiting) ∨
      ∃ i, m = .acquire i ∧ p.stage = .waiting ∧ answer = some true := by
  cases m with
  | start i =>
    rw [resume] at hleader
    split_ifs at hleader
    exact .inl ⟨hleader, by simp⟩
  | acquire i =>
    rw [resume] at hleader
    split_ifs at hleader with hstage
    · rcases answer with - | held
      · exact .inl ⟨hleader, by simp⟩
      · exact .inr ⟨i, rfl, hstage, congrArg some hleader⟩
    · exact .inl ⟨hleader, by simp⟩
  | fired i =>
    rw [resume] at hleader
    split_ifs at hleader
    · exact .inl ⟨hleader, by simp⟩
    · exact .inl ⟨hleader, by simp⟩
  | stop i =>
    rw [resume] at hleader
    split_ifs at hleader with hstage
    exact .inl ⟨hleader, fun _ _ ↦ hstage⟩
  | crash i => cases hleader
  | other op => exact .inl ⟨hleader, by simp⟩

omit peers cfg in
/-- A server fires schedules because it did so already, or because it was just told that it is
leader. -/
theorem firing_resume {p : Candidate} {answer : Option Bool} {m : Move ι}
    (hstage : (resume p answer m).stage = .firing) :
    (p.stage = .firing ∧ resume p answer m = p) ∨ (resume p answer m).leader = true := by
  cases m with
  | start i =>
    rw [resume] at hstage ⊢
    split_ifs at hstage ⊢
    exact .inl ⟨hstage, rfl⟩
  | acquire i =>
    rw [resume] at hstage ⊢
    split_ifs at hstage ⊢
    · rcases answer with - | held
      · exact .inl ⟨hstage, rfl⟩
      · cases held
        · cases hstage
        · exact .inr rfl
    · exact .inl ⟨hstage, rfl⟩
  | fired i =>
    rw [resume] at hstage ⊢
    split_ifs at hstage ⊢
    exact .inl ⟨hstage, rfl⟩
  | stop i =>
    rw [resume] at hstage ⊢
    split_ifs at hstage ⊢
    exact .inl ⟨hstage, rfl⟩
  | crash i => cases hstage
  | other op => exact .inl ⟨hstage, rfl⟩

variable [DecidableEq ι]

/-- The system after a move. -/
def next (s : System ι) (c : Input ι) : System ι where
  leases := leasesAfter peers cfg s c
  server i :=
    if mover c.move = some i then resume (s.server i) (told peers cfg s c) c.move else s.server i

/-- The servers and the leases they share. -/
def machine : Machine (System ι) (Input ι) where
  init := ⟨fun _ ↦ none, fun _ ↦ ⟨false, .stopped⟩⟩
  next := next peers cfg

end

/-! ### What a turn does to the lease -/

section

variable {ι : Type} (peers : ι → Peer) (cfg : Config)

/-- The leases the command of a turn sees. -/
def seen (t : Turn (System ι) (Input ι)) : Leases := t.before.leases.live cfg.visible t.input.now

/-- The turn took the lease for `i`, whether or not `i` was told. -/
def Acquires (t : Turn (System ι) (Input ι)) (i : ι) : Prop :=
  t.input.move = .acquire i ∧ t.input.fate ≠ .unsent ∧ (t.before.server i).stage = .waiting ∧
    (runLease (seen cfg t) t.input.now (acquireOp peers i)).1 = .ok true

/-- The turn gave the lease back for `i`. -/
def Releases (t : Turn (System ι) (Input ι)) (i : ι) : Prop :=
  t.input.move = .stop i ∧ t.input.fate ≠ .unsent ∧ (t.before.server i).stage = .waiting ∧
    (t.before.server i).leader = true

/-- When the lease ends that the turn took. -/
def termEnd (t : Turn (System ι) (Input ι)) (i : ι) : ℤ :=
  t.input.now + milliseconds (leaseTTL (peers i).visibilityTimeout)

/-- What may happen next: the server time does not go back, and nobody else uses the lease of the
scheduler. -/
structure Admissible (h : List (Turn (System ι) (Input ι))) (_ : System ι) (c : Input ι) :
    Prop where
  clock : ∀ t ∈ h, t.input.now ≤ c.now
  foreign : ∀ op, c.move = .other op → leaseOf op ≠ schedulerLease

variable {peers cfg} {t : Turn (System ι) (Input ι)} {i j : ι}
  {h : List (Turn (System ι) (Input ι))} {s : System ι}

theorem leasesAfter_of_none (hnone : executed peers t.before t.input = none) :
    leasesAfter peers cfg t.before t.input = t.before.leases := by
  rw [leasesAfter, hnone]

theorem leasesAfter_of_some {op : LeaseOp} (hop : executed peers t.before t.input = some op) :
    leasesAfter peers cfg t.before t.input = (runLease (seen cfg t) t.input.now op).2 := by
  rw [leasesAfter, hop]
  rfl

theorem Acquires.executed (hacq : Acquires peers cfg t i) :
    executed peers t.before t.input = some (acquireOp peers i) := by
  obtain ⟨hmove, hfate, hstage, -⟩ := hacq
  rw [Election.executed, if_neg hfate, hmove, command, if_pos hstage]

theorem Releases.executed (hrel : Releases t i) :
    executed peers t.before t.input = some (releaseOp peers i) := by
  obtain ⟨hmove, hfate, hstage, hleader⟩ := hrel
  rw [Election.executed, if_neg hfate, hmove, command, if_pos ⟨hstage, hleader⟩]

/-- A server takes the lease only if it is free or its own. -/
theorem Acquires.spec (hacq : Acquires peers cfg t i) :
    (∀ k, seen cfg t schedulerLease = some k → k.value = (peers i).workerID) ∧
    leasesAfter peers cfg t.before t.input schedulerLease =
      some ⟨(peers i).workerID, termEnd peers t i⟩ := by
  rw [leasesAfter_of_some hacq.executed]
  rcases acquire_cases (seen cfg t) t.input.now schedulerLease (peers i).workerID
    (leaseTTL (peers i).visibilityTimeout) with ⟨-, hfree, heq⟩ | ⟨hnot, -⟩
  · refine ⟨hfree, ?_⟩
    rw [acquireOp, runLease, heq]
    exact Function.update_self ..
  · exact absurd hacq.2.2.2 hnot

theorem Releases.spec (hrel : Releases t i) :
    leasesAfter peers cfg t.before t.input schedulerLease =
      if (seen cfg t schedulerLease).any (fun k ↦ decide (k.value = (peers i).workerID)) = true
      then none else seen cfg t schedulerLease := by
  rw [leasesAfter_of_some hrel.executed]
  exact release_spec _ (by decide) (peers i).workerID_ne

/-- Every other turn leaves the lease, though it may be seen to have run out. -/
theorem lease_of_neither (hforeign : ∀ op, t.input.move = .other op → leaseOf op ≠ schedulerLease)
    (hacq : ∀ i, ¬ Acquires peers cfg t i) (hrel : ∀ i, ¬ Releases t i) :
    leasesAfter peers cfg t.before t.input schedulerLease = seen cfg t schedulerLease ∨
      leasesAfter peers cfg t.before t.input schedulerLease = t.before.leases schedulerLease := by
  rcases hop : executed peers t.before t.input with - | op
  · exact .inr (congrFun (leasesAfter_of_none hop) _)
  · refine .inl ?_
    rw [leasesAfter_of_some hop]
    rw [executed] at hop
    split_ifs at hop with hfate
    rcases hmove : t.input.move with i | i | i | i | i | op'
    · rw [hmove] at hop
      cases hop
    · rw [hmove, command] at hop
      split_ifs at hop with hstage
      obtain rfl := Option.some.inj hop
      rcases acquire_cases (seen cfg t) t.input.now schedulerLease (peers i).workerID
        (leaseTTL (peers i).visibilityTimeout) with ⟨hok, -, -⟩ | ⟨-, heq⟩
      · exact absurd ⟨hmove, hfate, hstage, hok⟩ (hacq i)
      · exact congrFun heq _
    · rw [hmove] at hop
      cases hop
    · rw [hmove, command] at hop
      split_ifs at hop with hleads
      exact absurd ⟨hmove, hfate, hleads⟩ (hrel i)
    · rw [hmove] at hop
      cases hop
    · rw [hmove, command] at hop
      obtain rfl := Option.some.inj hop
      exact runLease_of_ne (hforeign _ hmove).symm

/-! ### The lease along a run -/

variable (peers cfg) in
/-- The last that `i` did with the lease was to take it until `e`. -/
inductive Grips : List (Turn (System ι) (Input ι)) → ι → ℤ → Prop
  | taken {t : Turn (System ι) (Input ι)} {h : List (Turn (System ι) (Input ι))} {i : ι} :
      Acquires peers cfg t i → Grips (t :: h) i (termEnd peers t i)
  | kept {t : Turn (System ι) (Input ι)} {h : List (Turn (System ι) (Input ι))} {i : ι} {e : ℤ} :
      Grips h i e → ¬ Acquires peers cfg t i → ¬ Releases t i → Grips (t :: h) i e

theorem grips_cons_iff {e : ℤ} (hacq : ¬ Acquires peers cfg t i) (hrel : ¬ Releases t i) :
    Grips peers cfg (t :: h) i e ↔ Grips peers cfg h i e := by
  constructor
  · intro hgrips
    cases hgrips with
    | taken hacq' => exact absurd hacq' hacq
    | kept hgrips _ _ => exact hgrips
  · exact fun hgrips ↦ .kept hgrips hacq hrel

/-- Redis forgets a key for good when its time has come. -/
def Forgets (visible : ℤ → ℤ → Bool) : Prop :=
  ∀ now now' e e', now' ≤ now → e ≤ e' → visible now e = true → visible now' e' = true

theorem seen_iff {e : ℤ} {v : String} (hlive : cfg.visible t.input.now e = true) :
    seen cfg t n = some ⟨v, e⟩ ↔ t.before.leases n = some ⟨v, e⟩ := by
  rw [seen, Leases.live, Option.filter_eq_some_iff]
  exact and_iff_left hlive

section Keys

variable {e : ℤ} (hids : Function.Injective fun i ↦ (peers i).workerID)
  (hlive : cfg.visible t.input.now e = true)
  (hold : t.before.leases schedulerLease = some ⟨(peers i).workerID, e⟩ ↔ Grips peers cfg h i e)

include hids hlive hold

theorem key_of_acquires (hacq : Acquires peers cfg t j) :
    leasesAfter peers cfg t.before t.input schedulerLease = some ⟨(peers i).workerID, e⟩ ↔
      Grips peers cfg (t :: h) i e := by
  obtain ⟨hfree, hafter⟩ := hacq.spec
  rw [hafter]
  by_cases hij : i = j
  · subst hij
    constructor
    · rintro ⟨⟩
      exact .taken hacq
    · intro hgrips
      cases hgrips with
      | taken _ => rfl
      | kept _ hnot _ => exact absurd hacq hnot
  · constructor
    · intro heq
      exact absurd (hids (congrArg Redis.LeaseKey.value (Option.some.inj heq)).symm) hij
    · intro hgrips
      cases hgrips with
      | taken hacq' => exact absurd (Move.acquire.inj (hacq'.1.symm.trans hacq.1)) hij
      | kept hgrips _ _ =>
        -- the lease of `i` was in sight, so `j` could not have taken it
        exact absurd (hids (hfree _ ((seen_iff hlive).2 (hold.2 hgrips)))) hij

theorem key_of_releases (hacq : ¬ Acquires peers cfg t i) (hrel : Releases t j) :
    leasesAfter peers cfg t.before t.input schedulerLease = some ⟨(peers i).workerID, e⟩ ↔
      Grips peers cfg (t :: h) i e := by
  rw [hrel.spec]
  by_cases hij : i = j
  · subst hij
    constructor
    · intro heq
      split_ifs at heq with hany
      exact absurd (by rw [heq]; exact decide_eq_true rfl) hany
    · intro hgrips
      cases hgrips with
      | taken hacq' => exact absurd hacq' hacq
      | kept _ _ hnot => exact absurd hrel hnot
  · have hother : ¬ Releases t i := fun hrel' ↦
      hij (Move.stop.inj (hrel'.1.symm.trans hrel.1))
    rw [grips_cons_iff hacq hother, ← hold, ← seen_iff hlive]
    constructor
    · intro heq
      split_ifs at heq
      exact heq
    · intro heq
      rw [if_neg, heq]
      rw [heq]
      intro hany
      exact hij (hids (of_decide_eq_true hany))

end Keys

variable [DecidableEq ι]

/-- **Who holds the lease** is who took it last and has not given it back. -/
theorem key_iff (hids : Function.Injective fun i ↦ (peers i).workerID)
    (hvisible : Forgets cfg.visible) (hrun : (machine peers cfg).Run Admissible h s) :
    ∀ {now e : ℤ}, (∀ t ∈ h, t.input.now ≤ now) → cfg.visible now e = true →
      (s.leases schedulerLease = some ⟨(peers i).workerID, e⟩ ↔ Grips peers cfg h i e) := by
  induction hrun with
  | start =>
    intro now e _ _
    constructor
    · intro hnone
      cases hnone
    · intro hgrips
      cases hgrips
  | @step h s c hrun hok ih =>
    intro now e hnow hlate
    have hlive : cfg.visible c.now e = true :=
      hvisible _ _ _ _ (hnow ⟨s, c⟩ List.mem_cons_self) le_rfl hlate
    have hold := ih hok.clock hlive
    by_cases hacq : ∃ j, Acquires peers cfg ⟨s, c⟩ j
    · obtain ⟨j, hacq⟩ := hacq
      exact key_of_acquires hids hlive hold hacq
    by_cases hrel : ∃ j, Releases (⟨s, c⟩ : Turn (System ι) (Input ι)) j
    · obtain ⟨j, hrel⟩ := hrel
      exact key_of_releases hids hlive hold (not_exists.1 hacq i) hrel
    rw [grips_cons_iff (not_exists.1 hacq i) (not_exists.1 hrel i), ← hold]
    show leasesAfter peers cfg s c schedulerLease = _ ↔ _
    rcases lease_of_neither hok.foreign (not_exists.1 hacq) (not_exists.1 hrel) with heq | heq
    · rw [heq]
      exact seen_iff hlive
    · rw [heq]

/-- Nobody but the servers ever holds the lease. -/
theorem holder_of_key (hrun : (machine peers cfg).Run Admissible h s) {k : Redis.LeaseKey}
    (hk : s.leases schedulerLease = some k) : ∃ i, k.value = (peers i).workerID := by
  induction hrun generalizing k with
  | start => cases hk
  | @step h s c hrun hok ih =>
    have hseen : ∀ {k}, seen cfg (⟨s, c⟩ : Turn (System ι) (Input ι)) schedulerLease = some k →
        ∃ i, k.value = (peers i).workerID := fun hk ↦ ih (Option.filter_eq_some_iff.1 hk).1
    change leasesAfter peers cfg s c schedulerLease = some k at hk
    by_cases hacq : ∃ j, Acquires peers cfg ⟨s, c⟩ j
    · obtain ⟨j, hacq⟩ := hacq
      rw [hacq.spec.2] at hk
      obtain rfl := Option.some.inj hk
      exact ⟨j, rfl⟩
    by_cases hrel : ∃ j, Releases (⟨s, c⟩ : Turn (System ι) (Input ι)) j
    · obtain ⟨j, hrel⟩ := hrel
      rw [hrel.spec] at hk
      split_ifs at hk
      exact hseen hk
    · rcases lease_of_neither hok.foreign (not_exists.1 hacq) (not_exists.1 hrel) with heq | heq
      · exact hseen (heq.symm.trans hk)
      · exact ih (heq.symm.trans hk)

/-! ### Leaders -/

variable (peers cfg) in
/-- The server was told that it has the lease. -/
def Wins (t : Turn (System ι) (Input ι)) (i : ι) : Prop :=
  Acquires peers cfg t i ∧ t.input.fate = .answered

omit [DecidableEq ι] in
/-- What a server is told of its `AcquireLease` is what came of it. -/
theorem wins_of_told {c : Input ι} (hmove : c.move = .acquire i)
    (hstage : (s.server i).stage = .waiting) (htold : told peers cfg s c = some true) :
    Wins peers cfg ⟨s, c⟩ i := by
  rw [told] at htold
  split_ifs at htold with hfate
  have hsent : c.fate ≠ .unsent := by
    rw [hfate]
    simp
  rw [executed, if_neg hsent, hmove, command, if_pos hstage, Option.bind_some] at htold
  refine ⟨⟨hmove, hsent, hstage, ?_⟩, hfate⟩
  rcases hres : (runLease (s.leases.live cfg.visible c.now) c.now (acquireOp peers i)).1
    with err | held
  · rw [hres] at htold
    cases htold
  · rw [hres] at htold
    obtain rfl : held = true := Option.some.inj htold
    exact hres

/-- A server that believes to be leader was so before and has not given the lease back, or it has
just been told. -/
theorem leader_next {c : Input ι} (hleader : ((next peers cfg s c).server i).leader = true) :
    Wins peers cfg ⟨s, c⟩ i ∨
      (s.server i).leader = true ∧ ¬ Releases (⟨s, c⟩ : Turn (System ι) (Input ι)) i := by
  rw [next] at hleader
  dsimp only at hleader
  split_ifs at hleader with hmover
  · rcases leader_resume hleader with ⟨hwas, hstop⟩ | ⟨k, hmove, hstage, htold⟩
    · exact .inr ⟨hwas, fun hrel ↦ hstop i hrel.1 hrel.2.2.1⟩
    · obtain rfl : k = i := by simpa [hmove, mover] using hmover
      exact .inl (wins_of_told hmove hstage htold)
  · refine .inr ⟨hleader, fun hrel ↦ hmover ?_⟩
    rw [show c.move = .stop i from hrel.1, mover]

/-- **A leader has a grip on the lease** that lasts at least as long as it was told. -/
theorem grips_of_leader (hrun : (machine peers cfg).Run Admissible h s)
    (hleader : (s.server i).leader = true) : (∃ t ∈ h, Wins peers cfg t i) ∧
      ∃ e, Grips peers cfg h i e ∧ ∀ t ∈ h, Wins peers cfg t i → termEnd peers t i ≤ e := by
  induction hrun with
  | start => cases hleader
  | @step h s c hrun hok ih =>
    have hlast : Acquires peers cfg ⟨s, c⟩ i → ∃ e, Grips peers cfg (⟨s, c⟩ :: h) i e ∧
        ∀ t ∈ (⟨s, c⟩ :: h : List (Turn (System ι) (Input ι))), Wins peers cfg t i →
          termEnd peers t i ≤ e := by
      refine fun hacq ↦ ⟨_, .taken hacq, fun t ht _ ↦ ?_⟩
      have hle : t.input.now ≤ c.now := by
        rcases List.mem_cons.1 ht with rfl | ht
        · exact le_rfl
        · exact hok.clock t ht
      simp only [termEnd]
      omega
    rcases leader_next hleader with hwins | ⟨hwas, hrel⟩
    · exact ⟨⟨_, List.mem_cons_self, hwins⟩, hlast hwins.1⟩
    · obtain ⟨⟨t, ht, hwins⟩, e, hgrips, hall⟩ := ih hwas
      refine ⟨⟨t, List.mem_cons_of_mem _ ht, hwins⟩, ?_⟩
      by_cases hacq : Acquires peers cfg ⟨s, c⟩ i
      · exact hlast hacq
      · refine ⟨e, .kept hgrips hacq hrel, fun t ht hwins ↦ ?_⟩
        rcases List.mem_cons.1 ht with rfl | ht
        · exact absurd hwins.1 hacq
        · exact hall t ht hwins

/-- Only a leader fires schedules. -/
theorem leader_of_firing (hrun : (machine peers cfg).Run Admissible h s)
    (hstage : (s.server i).stage = .firing) : (s.server i).leader = true := by
  induction hrun with
  | start => cases hstage
  | @step h s c hrun hok ih =>
    change ((next peers cfg s c).server i).stage = .firing at hstage
    change ((next peers cfg s c).server i).leader = true
    rw [next] at hstage ⊢
    dsimp only at hstage ⊢
    split_ifs at hstage ⊢
    · rcases firing_resume hstage with ⟨hwas, hsame⟩ | hleader
      · rw [hsame]
        exact ih hwas
      · exact hleader
    · exact ih hstage

variable (peers cfg) in
/-- Whatever the server was told of the lease has run out. -/
def Lapsed (h : List (Turn (System ι) (Input ι))) (i : ι) (now : ℤ) : Prop :=
  ∀ t ∈ h, Wins peers cfg t i → cfg.visible now (termEnd peers t i) = false

/-- A leader whose term is not over holds the lease. -/
theorem lease_of_leader (hids : Function.Injective fun i ↦ (peers i).workerID)
    (hvisible : Forgets cfg.visible) (hrun : (machine peers cfg).Run Admissible h s) {now : ℤ}
    (hnow : ∀ t ∈ h, t.input.now ≤ now) (hleader : (s.server i).leader = true)
    (hterm : ¬ Lapsed peers cfg h i now) :
    ∃ e, s.leases schedulerLease = some ⟨(peers i).workerID, e⟩ := by
  simp only [Lapsed, not_forall, Bool.not_eq_false] at hterm
  obtain ⟨t, ht, hwins, hterm⟩ := hterm
  obtain ⟨-, e, hgrips, hall⟩ := grips_of_leader hrun hleader
  have hlive := hvisible _ _ _ _ le_rfl (hall t ht hwins) hterm
  exact ⟨e, (key_iff hids hvisible hrun hnow hlive).2 hgrips⟩

end

/-! ### Two servers -/

/-- The identifiers of two servers. -/
def pairID : Bool → String
  | false => "a"
  | true => "b"

theorem pairID_ne : ∀ b, pairID b ≠ "" := by decide

theorem pairID_injective : Function.Injective pairID := by decide

/-- Two servers with a visibility timeout of thirty seconds, and so with a lease of fifteen. -/
def pair (b : Bool) : Peer := ⟨pairID b, 30 * 10 ^ 9, pairID_ne b⟩

theorem forgets_default : Forgets Config.default.visible := by
  intro now now' e e' hnow he hlive
  have hlt : now < e := of_decide_eq_true hlive
  exact decide_eq_true (by omega)

/-- The first server is told that it is leader, and is still at its schedules when the second one
is told the same. -/
def overlapping : List (Input Bool) :=
  [⟨0, .start false, .answered⟩, ⟨0, .start true, .answered⟩, ⟨5000, .acquire false, .answered⟩,
    ⟨20000, .acquire true, .answered⟩]

/-- The first server takes the lease without being told, and stops without giving it back. -/
def silentlyHeld : List (Input Bool) :=
  [⟨0, .start false, .answered⟩, ⟨0, .start true, .answered⟩, ⟨5000, .acquire false, .lost⟩,
    ⟨6000, .stop false, .answered⟩]

/-- The two servers after some moves. -/
def played (moves : List (Input Bool)) :
    List (Turn (System Bool) (Input Bool)) × System Bool :=
  (machine pair .default).play [] (machine pair .default).init moves

theorem run_overlapping : (machine pair .default).Run Admissible (played overlapping).1
    (played overlapping).2 := by
  refine .play overlapping .start ⟨⟨by simp, by simp⟩, ⟨by simp, by simp⟩, ⟨by simp, by simp⟩,
    ⟨by simp, by simp⟩, trivial⟩

theorem run_silentlyHeld : (machine pair .default).Run Admissible (played silentlyHeld).1
    (played silentlyHeld).2 := by
  refine .play silentlyHeld .start ⟨⟨by simp, by simp⟩, ⟨by simp, by simp⟩, ⟨by simp, by simp⟩,
    ⟨by simp, by simp⟩, trivial⟩

/-! ### The election -/

section

variable {ι : Type} [DecidableEq ι] {peers : ι → Peer} {cfg : Config} {i : ι}
  {h : List (Turn (System ι) (Input ι))} {s : System ι}

/-- **Leaders overlap only after a lapse.** However the servers of an election start, stop, crash
and lose answers: a server fires schedules only while it believes to be leader, it believes so only
because it was once told so, and if two of them believe it at the same time then what one of them
was told has run out. -/
theorem leaders_overlap_after_lapse (hids : Function.Injective fun i ↦ (peers i).workerID)
    (hvisible : Forgets cfg.visible) (hrun : (machine peers cfg).Run Admissible h s) {now : ℤ}
    (hnow : ∀ t ∈ h, t.input.now ≤ now) :
    (∀ i, (s.server i).stage = .firing → (s.server i).leader = true) ∧
    (∀ i, (s.server i).leader = true → ∃ t ∈ h, Wins peers cfg t i) ∧
    ∀ i j, (s.server i).leader = true → (s.server j).leader = true → i ≠ j →
      Lapsed peers cfg h i now ∨ Lapsed peers cfg h j now := by
  refine ⟨fun i ↦ leader_of_firing hrun, fun i hi ↦ (grips_of_leader hrun hi).1,
    fun i j hi hj hij ↦ ?_⟩
  by_contra hterms
  rw [not_or] at hterms
  obtain ⟨e, he⟩ := lease_of_leader hids hvisible hrun hnow hi hterms.1
  obtain ⟨e', he'⟩ := lease_of_leader hids hvisible hrun hnow hj hterms.2
  rw [he] at he'
  exact hij (hids (congrArg Redis.LeaseKey.value (Option.some.inj he')))

theorem leaders_overlap_after_lapse_pair :
    ((played overlapping).2.server false).leader = true ∧
    ((played overlapping).2.server true).leader = true ∧
    (Lapsed pair .default (played overlapping).1 false 20000 ∨
      Lapsed pair .default (played overlapping).1 true 20000) := by
  have hfirst : ((played overlapping).2.server false).leader = true := rfl
  have hsecond : ((played overlapping).2.server true).leader = true := rfl
  have hnow : ∀ t ∈ (played overlapping).1, t.input.now ≤ 20000 := by
    simp [played, Machine.play, overlapping]
  obtain ⟨-, -, hlapsed⟩ :=
    leaders_overlap_after_lapse pairID_injective forgets_default run_overlapping hnow
  exact ⟨hfirst, hsecond, hlapsed _ _ hfirst hsecond (by decide)⟩

/-- **Who can take over.** A server that asks for the lease gets it, unless the last that another
server did with it was to take it, for a time that is not over. So a leader that gives the lease
back can be followed at once. A leader that dies, or that stops without having been told that it is
leader, can be followed when its time is over. -/
theorem acquire_succeeds_iff (hids : Function.Injective fun i ↦ (peers i).workerID)
    (hvisible : Forgets cfg.visible) (hrun : (machine peers cfg).Run Admissible h s) {now : ℤ}
    (hnow : ∀ t ∈ h, t.input.now ≤ now)
    (httl : millisecond ≤ leaseTTL (peers i).visibilityTimeout) :
    (runLease (s.leases.live cfg.visible now) now (acquireOp peers i)).1 = .ok true ∧
      (∀ j e, Grips peers cfg h j e → cfg.visible now e = true → j = i) ∨
    (runLease (s.leases.live cfg.visible now) now (acquireOp peers i)).1 = .ok false ∧
      ∃ j e, j ≠ i ∧ Grips peers cfg h j e ∧ cfg.visible now e = true := by
  have hheld {k : Redis.LeaseKey} (hk : s.leases.live cfg.visible now schedulerLease = some k) :
      ∃ j, k.value = (peers j).workerID ∧ Grips peers cfg h j k.expireAt ∧
        cfg.visible now k.expireAt = true := by
    obtain ⟨hkey, hlive⟩ := Option.filter_eq_some_iff.1 hk
    obtain ⟨j, hj⟩ := holder_of_key hrun hkey
    refine ⟨j, hj, (key_iff hids hvisible hrun hnow hlive).1 ?_, hlive⟩
    rw [hkey, ← hj]
  have hgrips {j : ι} {e : ℤ} (hg : Grips peers cfg h j e) (hlive : cfg.visible now e = true) :
      s.leases.live cfg.visible now schedulerLease = some ⟨(peers j).workerID, e⟩ :=
    Option.filter_eq_some_iff.2 ⟨(key_iff hids hvisible hrun hnow hlive).2 hg, hlive⟩
  rw [acquireOp, runLease, acquire_answer _ _ (by decide) (peers i).workerID_ne httl]
  rcases hk : s.leases.live cfg.visible now schedulerLease with - | k
  · refine .inl ⟨rfl, fun j e hg hlive ↦ ?_⟩
    cases hk.symm.trans (hgrips hg hlive)
  obtain ⟨j, hj, hg, hlive⟩ := hheld hk
  rw [Option.all_some, hj]
  by_cases hij : j = i
  · refine .inl ⟨by rw [hij, decide_eq_true rfl], fun j' e hg' hlive' ↦ ?_⟩
    obtain rfl := Option.some.inj (hk.symm.trans (hgrips hg' hlive'))
    exact (hids hj).trans hij
  · have hne : ¬ (peers j).workerID = (peers i).workerID := fun heq ↦ hij (hids heq)
    exact .inr ⟨by rw [decide_eq_false hne], j, _, hij, hg, hlive⟩

theorem acquire_refused_after_silent_stop :
    ((played silentlyHeld).2.server false).stage = .stopped ∧
    (runLease ((played silentlyHeld).2.leases.live Config.default.visible 7000) 7000
      (acquireOp pair true)).1 = .ok false ∧
    ∃ j e, j ≠ true ∧ Grips pair .default (played silentlyHeld).1 j e ∧
      Config.default.visible 7000 e = true := by
  have hrefused : (runLease ((played silentlyHeld).2.leases.live Config.default.visible 7000) 7000
      (acquireOp pair true)).1 = .ok false := rfl
  refine ⟨rfl, (acquire_succeeds_iff pairID_injective forgets_default run_silentlyHeld
    (by simp [played, Machine.play, silentlyHeld]) (by decide)).resolve_left fun hwon ↦ ?_⟩
  cases hrefused.symm.trans hwon.1

end

end TaskQueue.Scheduler.Election
