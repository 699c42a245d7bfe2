import TaskQueue.Server.Model

/-!
# The pool of a worker

How many jobs a worker runs at a time, and what it leaves behind when it stops.

The `slots` channel is the only limit on concurrency, and it is filled and emptied in different
goroutines: the fetch loop sends before it asks for a job, and what it sent is received by the
goroutine of the job, or by the fetch loop itself if there was none. So the number of elements in
the channel has to be **the number of goroutines that have not come to their receive yet, plus one
while the fetch loop has a slot in its hands** (`Sound.slots`). That is what every step keeps, with
the same for the counter of the `WaitGroup`. The bound on running handlers and the completeness of a
clean shutdown are read off these two counts; that every execution is reported exactly once is read
off its stage.
-/

namespace TaskQueue.Server

/-- The goroutine has not given its slot back. -/
def Stage.holdsSlot : Stage → Bool
  | .claimed => false
  | .released => false
  | .finished => false
  | _ => true

/-- The `WaitGroup` counts the goroutine. -/
def Stage.isWaited : Stage → Bool
  | .claimed => false
  | .finished => false
  | _ => true

/-- The handler is running. -/
def Stage.isRunning : Stage → Bool
  | .running => true
  | _ => false

/-- The outcome has been reported. -/
def Stage.isReported : Stage → Bool
  | .reported => true
  | .untracked => true
  | .released => true
  | .finished => true
  | _ => false

/-- What the handler returned, while it has not been reported. -/
def Stage.error? : Stage → Option (Option HandlerError)
  | .returned err => some err
  | _ => none

section Trace

variable (cfg : Config)

/-- The report that a turn makes on execution `i`, if it makes one. -/
def issued (i : ℕ) (t : Turn Worker Step) : Option Report :=
  match t.input with
  | .job k (.report now) =>
    if k = i then
      t.before.executions[i]?.bind fun e ↦ e.stage.error?.map (report cfg now e.job)
    else none
  | _ => none

/-- All reports made on execution `i`. -/
def reportsOn (h : List (Turn Worker Step)) (i : ℕ) : List Report := h.filterMap (issued cfg i)

end Trace

/-- The job that a turn claims. -/
def claims (t : Turn Worker Step) : Option Job :=
  match t.input with
  | .fetch (.dequeue (.job j)) => some j
  | _ => none

/-- The jobs that successful `Dequeue`s returned, oldest first. -/
def claimedJobs (h : List (Turn Worker Step)) : List Job := h.reverse.filterMap claims

/-- The handler of execution `i` ended like this. -/
def Handled (h : List (Turn Worker Step)) (i : ℕ) (o : Outcome) : Prop :=
  ∃ t ∈ h, t.input = .job i (.handle o)

variable {cfg : Config} {s s' : Worker} {a : Step} {i : ℕ} {e : Execution} {f : Fetch}
  {h : List (Turn Worker Step)} {t : Turn Worker Step}

/-! ### Counting -/

/-- What holds of a worker at every moment. -/
structure Sound (cfg : Config) (s : Worker) : Prop where
  slots : s.slots =
    s.executions.countP (fun e ↦ e.stage.holdsSlot) + s.control.holdsSlot.toNat
  bound : s.slots ≤ cfg.concurrency
  waited : s.wg = s.executions.countP fun e ↦ e.stage.isWaited
  /-- A job that has no goroutine is the one the fetch loop has in its hands. -/
  claimed : ∀ i e, s.executions[i]? = some e →
    (e.stage = .claimed ↔ s.control = .fetching (.starting i))
  /-- `done` is closed only when nothing can start any more. -/
  drained : s.drained = true → (∀ f, s.control ≠ .fetching f) ∧ s.wg = 0
  ended : s.control.endedWell = true → s.drained = true

theorem sound_init (cfg : Config) : Sound cfg .init where
  slots := rfl
  bound := Nat.zero_le _
  waited := rfl
  claimed _ _ he := by cases he
  drained hdrained := by cases hdrained
  ended hended := by cases hended

/-- While the fetch loop is running nothing is drained. -/
theorem Sound.not_drained (hs : Sound cfg s) (hf : s.control = .fetching f) : s.drained ≠ true :=
  fun hdrained ↦ (hs.drained hdrained).1 f hf

/-- The fetch loop goes to another place, with no job in its hands before or after. -/
theorem Sound.go (hs : Sound cfg s) {n : ℕ} {c : Control} (hf : s.control = .fetching f)
    (hfrom : ∀ i, f ≠ .starting i)
    (hto : c = .draining ∨ ∃ f', c = .fetching f' ∧ ∀ i, f' ≠ .starting i)
    (hslots : n + f.holdsSlot.toNat = s.slots + c.holdsSlot.toNat)
    (hbound : n ≤ s.slots ∨ n ≤ cfg.concurrency) :
    Sound cfg { s with slots := n, control := c } where
  slots := by
    have hcount := hs.slots
    rw [hf] at hcount
    change s.slots = s.executions.countP (fun e ↦ e.stage.holdsSlot) + f.holdsSlot.toNat at hcount
    change n = s.executions.countP (fun e ↦ e.stage.holdsSlot) + c.holdsSlot.toNat
    omega
  bound := hbound.elim (fun hle ↦ hle.trans hs.bound) id
  waited := hs.waited
  claimed i e he := by
    refine ((hs.claimed i e he).trans (iff_of_false ?_ ?_))
    · rw [hf]
      exact fun heq ↦ hfrom i (Control.fetching.inj heq)
    · rcases hto with rfl | ⟨f', rfl, hto⟩
      · exact Control.noConfusion
      · exact fun heq ↦ hto i (Control.fetching.inj heq)
  drained hdrained := absurd hdrained (hs.not_drained hf)
  ended hended := by rcases hto with rfl | ⟨f', rfl, -⟩ <;> cases hended

/-- The fetch loop takes on a job. -/
theorem Sound.claim (hs : Sound cfg s) (hf : s.control = .fetching .polling) (j : Job) :
    Sound cfg { s with
      executions := s.executions ++ [⟨j, .claimed⟩]
      control := .fetching (.starting s.executions.length) } where
  slots := by
    have hcount := hs.slots
    rw [hf] at hcount
    rw [List.countP_append]
    exact hcount
  bound := hs.bound
  waited := by
    rw [List.countP_append]
    exact hs.waited
  claimed i e he := by
    rw [Roster.getElem?_join] at he
    split_ifs at he with hi
    · obtain rfl := Option.some.inj he
      exact iff_of_true rfl (by rw [hi])
    · refine (hs.claimed i e he).trans (iff_of_false (by rw [hf]; simp) ?_)
      exact fun heq ↦ hi (Fetch.starting.inj (Control.fetching.inj heq)).symm
  drained hdrained := absurd hdrained (hs.not_drained hf)
  ended hended := by cases hended

/-- The fetch loop hands its job and its slot to a new goroutine. -/
theorem Sound.launch (hs : Sound cfg s) (hf : s.control = .fetching (.starting i))
    (he : s.executions[i]? = some e) :
    Sound cfg { s.setStage i e .started with wg := s.wg + 1, control := .fetching .selecting } := by
  have hclaimed : e.stage = .claimed := (hs.claimed i e he).2 hf
  have hholds := Roster.countP_replace (fun e ↦ e.stage.holdsSlot) he ⟨e.job, .started⟩
  have hwaited := Roster.countP_replace (fun e ↦ e.stage.isWaited) he ⟨e.job, .started⟩
  simp only [hclaimed] at hholds hwaited
  exact {
    slots := by
      have hcount := hs.slots
      rw [hf] at hcount
      exact hcount.trans hholds.symm
    bound := hs.bound
    waited := (congrArg (· + 1) hs.waited).trans hwaited.symm
    claimed := fun k e' he' ↦ by
      rw [Worker.setStage, Roster.getElem?_replace he] at he'
      split_ifs at he' with hk
      · obtain rfl := Option.some.inj he'
        exact iff_of_false (by simp) (by simp)
      · refine (hs.claimed k e' he').trans (iff_of_false ?_ (by simp))
        rw [hf]
        exact fun heq ↦ hk (Fetch.starting.inj (Control.fetching.inj heq)).symm
    drained := fun hdrained ↦ absurd hdrained (hs.not_drained hf)
    ended := fun hended ↦ by cases hended }

/-- The goroutine of an execution moves on, and the counters move with it. -/
theorem Sound.move (hs : Sound cfg s) (he : s.executions[i]? = some e) {st : Stage} {n w : ℕ}
    {m : Table String ℕ} {l : List ℕ} (hfrom : e.stage ≠ .claimed) (hto : st ≠ .claimed)
    (hslots : n + e.stage.holdsSlot.toNat = s.slots + st.holdsSlot.toNat)
    (hwg : w + e.stage.isWaited.toNat = s.wg + st.isWaited.toNat) (hn : n ≤ s.slots)
    (hw : w ≤ s.wg) :
    Sound cfg { s with
      slots := n, wg := w, executions := s.executions.set i { e with stage := st }
      inFlight := m, cancelCalls := l } where
  slots := by
    have hholds : (s.executions.set i { e with stage := st }).countP (fun e ↦ e.stage.holdsSlot) +
        e.stage.holdsSlot.toNat = _ + st.holdsSlot.toNat := Roster.countP_replace _ he _
    have hcount := hs.slots
    change n = (s.executions.set i { e with stage := st }).countP (fun e ↦ e.stage.holdsSlot) +
      s.control.holdsSlot.toNat
    omega
  bound := hn.trans hs.bound
  waited := by
    have hwaited : (s.executions.set i { e with stage := st }).countP (fun e ↦ e.stage.isWaited) +
        e.stage.isWaited.toNat = _ + st.isWaited.toNat := Roster.countP_replace _ he _
    have hcount := hs.waited
    change w = (s.executions.set i { e with stage := st }).countP fun e ↦ e.stage.isWaited
    omega
  claimed k e' he' := by
    rw [Roster.getElem?_replace he] at he'
    split_ifs at he' with hk
    · obtain rfl := Option.some.inj he'
      subst hk
      exact iff_of_false hto fun hf ↦ hfrom ((hs.claimed k e he).2 hf)
    · exact hs.claimed k e' he'
  drained hdrained := by
    obtain ⟨hnot, hzero⟩ := hs.drained hdrained
    exact ⟨hnot, Nat.eq_zero_of_le_zero (hw.trans hzero.le)⟩
  ended := hs.ended

/-- An execution that holds a slot: there is one. -/
theorem Sound.slots_pos (hs : Sound cfg s) (he : s.executions[i]? = some e)
    (hholds : e.stage.holdsSlot = true) : 0 < s.slots := by
  have hpos : 0 < s.executions.countP fun e ↦ e.stage.holdsSlot :=
    List.countP_pos_iff.2 ⟨e, List.mem_of_getElem? he, hholds⟩
  have hcount := hs.slots
  omega

theorem Sound.wg_pos (hs : Sound cfg s) (he : s.executions[i]? = some e)
    (hwaited : e.stage.isWaited = true) : 0 < s.wg := by
  rw [hs.waited]
  exact List.countP_pos_iff.2 ⟨e, List.mem_of_getElem? he, hwaited⟩

theorem sound_runJob (hs : Sound cfg s) {b : JobStep} (hstep : runJob s i b = some s') :
    Sound cfg s' := by
  obtain ⟨⟨j, st⟩, st', s₁, he, hst, hs₁, rfl⟩ := runJob_eq_some hstep
  rcases Stage.advance_cases hst with
    ⟨rfl, rfl, rfl⟩ | ⟨o, rfl, rfl, rfl⟩ | ⟨now, err, rfl, rfl, rfl⟩ |
    ⟨rfl, rfl, rfl⟩ | ⟨rfl, rfl, rfl⟩ | ⟨rfl, rfl, rfl⟩
  · obtain rfl := Option.some.inj hs₁
    exact hs.move he (by simp) (by simp) rfl rfl le_rfl le_rfl
  · obtain rfl := Option.some.inj hs₁
    exact hs.move he (by simp) (by simp) rfl rfl le_rfl le_rfl
  · obtain rfl := Option.some.inj hs₁
    exact hs.move he (by simp) (by simp) rfl rfl le_rfl le_rfl
  · obtain rfl := Option.some.inj hs₁
    exact hs.move he (by simp) (by simp) rfl rfl le_rfl le_rfl
  · have hpos := hs.slots_pos he rfl
    rw [Worker.touch, if_pos hpos] at hs₁
    obtain rfl := Option.some.inj hs₁
    exact hs.move he (by simp) (by simp) (Nat.sub_add_cancel hpos) rfl (Nat.sub_le _ _) le_rfl
  · have hpos := hs.wg_pos he rfl
    obtain rfl := Option.some.inj hs₁
    exact hs.move he (by simp) (by simp) rfl (Nat.sub_add_cancel hpos) le_rfl (Nat.sub_le _ _)

/-- Outside the fetch loop `Run` has no slot. -/
theorem Control.holdsSlot_eq_false {c : Control} (hc : ∀ f, c ≠ .fetching f) :
    c.holdsSlot = false := by
  rcases c with f | - | - | err | err
  · exact absurd rfl (hc f)
  all_goals rfl

theorem sound_drain (hs : Sound cfg s) {d : DrainStep} (hstep : drain s s.control d = some s') :
    Sound cfg s' := by
  obtain ⟨hfrom, c, x, y, rfl, hto, hx, hended⟩ := drain_cases hstep
  have hzero : x = true → s.wg = 0 := by
    rcases hx with rfl | ⟨-, hzero⟩
    · exact fun hdrained ↦ (hs.drained hdrained).2
    · exact fun _ ↦ hzero
  have hclosed : s.drained = true → x = true := by
    rcases hx with rfl | ⟨hx, -⟩
    · exact id
    · exact fun _ ↦ hx
  exact {
    slots := by
      have hcount := hs.slots
      rw [Control.holdsSlot_eq_false hfrom] at hcount
      change s.slots = _ + c.holdsSlot.toNat
      rwa [Control.holdsSlot_eq_false hto]
    bound := hs.bound
    waited := hs.waited
    claimed := fun i e he ↦ (hs.claimed i e he).trans (iff_of_false (hfrom _) (hto _))
    drained := fun hdrained ↦ ⟨hto, hzero hdrained⟩
    ended := fun hwell ↦ hclosed ((hended hwell).elim hs.ended id) }

theorem sound_step (hs : Sound cfg s) (hstep : step cfg s a = some s') : Sound cfg s' := by
  cases a with
  | cancel =>
    obtain rfl := Option.some.inj hstep
    exact ⟨hs.slots, hs.bound, hs.waited, hs.claimed, hs.drained, hs.ended⟩
  | fetch a =>
    rw [step] at hstep
    split at hstep
    · next f hf =>
      rcases fetchLoop_cases hstep with ⟨j, rfl, rfl, rfl⟩ | ⟨i, e, rfl, rfl, he, rfl⟩ |
        ⟨n, c, rfl, -, hfrom, hto, hslots, hbound⟩
      · exact hs.claim hf j
      · exact hs.launch hf he
      · exact hs.go hf hfrom hto hslots hbound
    · cases hstep
  | job i b => exact sound_runJob hs hstep
  | drain d => exact sound_drain hs hstep
  | renew r =>
    obtain ⟨l, p, rfl⟩ := renewLoop_eq_some hstep
    exact ⟨hs.slots, hs.bound, hs.waited, hs.claimed, hs.drained, hs.ended⟩

theorem sound_of_run (hrun : Run cfg h s) : Sound cfg s :=
  hrun.induct (P := fun _ s ↦ Sound cfg s) (sound_init cfg) fun _ _ _ _ hs hstep ↦
    sound_step hs hstep

/-! ### Reports -/

theorem reportsOn_cons (t : Turn Worker Step) (h : List (Turn Worker Step)) (i : ℕ) :
    reportsOn cfg (t :: h) i = (issued cfg i t).toList ++ reportsOn cfg h i := by
  rw [reportsOn, reportsOn, List.filterMap_cons]
  rcases issued cfg i t with - | r
  · rfl
  · rfl

/-- Only its own goroutine reports on an execution. -/
theorem issued_eq_none (hother : ∀ b, a ≠ .job i b) : issued cfg i ⟨s, a⟩ = none := by
  unfold issued
  split
  · next k now heq =>
    change a = .job k (.report now) at heq
    exact if_neg fun hk ↦ hother _ (hk ▸ heq)
  · rfl

theorem Handled.cons {o : Outcome} (hhandled : Handled h i o) (t : Turn Worker Step) :
    Handled (t :: h) i o := by
  obtain ⟨u, hu, hinput⟩ := hhandled
  exact ⟨u, List.mem_cons_of_mem t hu, hinput⟩

/-- What has been reported on an execution at its stage. -/
structure Accounts (cfg : Config) (h : List (Turn Worker Step)) (i : ℕ) (e : Execution) : Prop where
  once : e.stage.isReported = true →
    ∃ now o, Handled h i o ∧ reportsOn cfg h i = [report cfg now e.job (invoke o)]
  none : e.stage.isReported = false → reportsOn cfg h i = []
  handled : ∀ err, e.stage = .returned err → ∃ o, Handled h i o ∧ err = invoke o

/-- Before the handler has ended there is nothing to account for. -/
theorem Accounts.of_nil (hnil : reportsOn cfg h i = []) (hrep : e.stage.isReported = false)
    (hret : ∀ err, e.stage ≠ .returned err) : Accounts cfg h i e where
  once htrue := by
    rw [hrep] at htrue
    cases htrue
  none _ := hnil
  handled err herr := absurd herr (hret err)

/-- Steps of other goroutines change nothing. -/
theorem Accounts.cons (hacc : Accounts cfg h i e) {t : Turn Worker Step}
    (hsame : reportsOn cfg (t :: h) i = reportsOn cfg h i) : Accounts cfg (t :: h) i e where
  once htrue := by
    obtain ⟨now, o, hhandled, hone⟩ := hacc.once htrue
    exact ⟨now, o, hhandled.cons t, hsame.trans hone⟩
  none hfalse := hsame.trans (hacc.none hfalse)
  handled err herr := by
    obtain ⟨o, hhandled, heq⟩ := hacc.handled err herr
    exact ⟨o, hhandled.cons t, heq⟩

/-- After the report the goroutine reports nothing more. -/
theorem Accounts.later (hacc : Accounts cfg h i e) {t : Turn Worker Step} {st : Stage}
    (hsame : reportsOn cfg (t :: h) i = reportsOn cfg h i) (hfrom : e.stage.isReported = true)
    (hto : st.isReported = true) : Accounts cfg (t :: h) i { e with stage := st } where
  once _ := (hacc.cons hsame).once hfrom
  none hfalse := by
    rw [hto] at hfalse
    cases hfalse
  handled err herr := by
    change st = .returned err at herr
    rw [herr] at hto
    cases hto

/-- **The steps of one goroutine and its reports.** -/
theorem accounts_advance (hacc : Accounts cfg h i e) {b : JobStep} {st : Stage}
    (he : s.executions[i]? = some e) (hst : e.stage.advance b = some st) :
    Accounts cfg (⟨s, .job i b⟩ :: h) i { e with stage := st } := by
  have hsame : issued cfg i ⟨s, .job i b⟩ = none →
      reportsOn cfg (⟨s, .job i b⟩ :: h) i = reportsOn cfg h i := by
    intro hnone
    rw [reportsOn_cons, hnone]
    rfl
  obtain ⟨j, st₀⟩ := e
  rcases Stage.advance_cases hst with ⟨rfl, rfl, rfl⟩ | ⟨o, rfl, rfl, rfl⟩ |
    ⟨now, err, rfl, rfl, rfl⟩ | ⟨rfl, rfl, rfl⟩ | ⟨rfl, rfl, rfl⟩ | ⟨rfl, rfl, rfl⟩
  · exact .of_nil ((hsame rfl).trans (hacc.none rfl)) rfl (by simp)
  · refine ⟨Bool.noConfusion, fun _ ↦ (hsame rfl).trans (hacc.none rfl), fun err herr ↦ ?_⟩
    exact ⟨o, ⟨_, List.mem_cons_self, rfl⟩, (Stage.returned.inj herr).symm⟩
  · -- the one step that reports, and nothing was reported before it
    obtain ⟨o, hhandled, rfl⟩ := hacc.handled err rfl
    refine ⟨fun _ ↦ ⟨now, o, hhandled.cons _, ?_⟩, Bool.noConfusion, fun _ herr ↦ by cases herr⟩
    have hissued : issued cfg i ⟨s, .job i (.report now)⟩ = some (report cfg now j (invoke o)) := by
      simp [issued, he, Stage.error?]
    rw [reportsOn_cons, hissued, hacc.none rfl]
    rfl
  · exact hacc.later (hsame rfl) rfl rfl
  · exact hacc.later (hsame rfl) rfl rfl
  · exact hacc.later (hsame rfl) rfl rfl

/-- What has been reported under a number: nothing if there is no such execution. -/
def Settled (cfg : Config) (h : List (Turn Worker Step)) (i : ℕ) (o : Option Execution) : Prop :=
  o.elim (reportsOn cfg h i = []) (Accounts cfg h i)

theorem settled_step (hs : Sound cfg s) (hsettled : Settled cfg h i s.executions[i]?)
    (hstep : step cfg s a = some s') : Settled cfg (⟨s, a⟩ :: h) i s'.executions[i]? := by
  rcases execution_of_step hstep i with ⟨b, e, st, rfl, he, hst, he'⟩ | ⟨hother, hcases⟩
  · rw [he] at hsettled
    rw [he']
    exact accounts_advance hsettled he hst
  · have hsame : reportsOn cfg (⟨s, a⟩ :: h) i = reportsOn cfg h i := by
      rw [reportsOn_cons, issued_eq_none hother]
      rfl
    rcases hcases with heq | ⟨j, -, hnone, he'⟩ | ⟨e, hf, he, he'⟩
    · rw [heq]
      rcases hex : s.executions[i]? with - | e <;> rw [hex] at hsettled
      · exact hsame.trans hsettled
      · exact Accounts.cons hsettled hsame
    · rw [hnone] at hsettled
      rw [he']
      exact Accounts.of_nil (hsame.trans hsettled) rfl (by simp)
    · rw [he] at hsettled
      rw [he']
      have hclaimed : e.stage = .claimed := (hs.claimed i e he).2 hf
      have hnil := Accounts.none hsettled (by rw [hclaimed]; rfl)
      exact Accounts.of_nil (hsame.trans hnil) rfl (by simp)

/-- Every execution is accounted for. -/
theorem settled_of_run (hrun : Run cfg h s) : ∀ i, Settled cfg h i s.executions[i]? := by
  have hboth : Sound cfg s ∧ ∀ i, Settled cfg h i s.executions[i]? := by
    refine hrun.induct (P := fun h s ↦ Sound cfg s ∧ ∀ i, Settled cfg h i s.executions[i]?) ?_ ?_
    · exact ⟨sound_init cfg, fun i ↦ rfl⟩
    · intro h s a s' hP hstep
      exact ⟨sound_step hP.1 hstep, fun i ↦ settled_step hP.1 (hP.2 i) hstep⟩
  exact hboth.2

/-! ### Claims -/

theorem claimedJobs_cons (t : Turn Worker Step) (h : List (Turn Worker Step)) :
    claimedJobs (t :: h) = claimedJobs h ++ (claims t).toList := by
  rw [claimedJobs, List.reverse_cons, List.filterMap_append]
  rcases hclaims : claims t with - | j <;> simp [claimedJobs, hclaims]

theorem claims_eq_none (hno : ∀ j, a ≠ .fetch (.dequeue (.job j))) : claims ⟨s, a⟩ = none := by
  unfold claims
  split
  · next j heq => exact absurd heq (hno j)
  · rfl

/-- The executions are those of the jobs that were claimed, in the order of the claims. -/
theorem claimedJobs_of_run (hrun : Run cfg h s) :
    claimedJobs h = s.executions.map Execution.job := by
  refine hrun.induct (P := fun h s ↦ claimedJobs h = s.executions.map Execution.job) rfl ?_
  intro h s a s' hP hstep
  rw [claimedJobs_cons, hP]
  rcases executions_of_step hstep with ⟨j, rfl, hex⟩ | ⟨i, e, rfl, -, he, hex⟩ |
    ⟨i, b, e, st, rfl, he, -, hex⟩ | ⟨hex, hno, -⟩
  · rw [hex, List.map_append]
    rfl
  · rw [hex, claims_eq_none (by simp), Roster.map_replace he (by rfl)]
    exact List.append_nil _
  · rw [hex, claims_eq_none (by simp), Roster.map_replace he (by rfl)]
    exact List.append_nil _
  · rw [hex, claims_eq_none hno]
    exact List.append_nil _

/-- A `Dequeue` is only called with a slot in hand. -/
theorem holdsSlot_of_dequeue {r : Dequeued} (hstep : (step cfg s (.fetch (.dequeue r))).isSome) :
    s.control = .fetching .polling := by
  obtain ⟨s', hs'⟩ := Option.isSome_iff_exists.1 hstep
  rw [step] at hs'
  split at hs'
  · next f hf =>
    cases f with
    | polling => exact hf
    | _ => cases hs'
  · cases hs'

/-- Once everything is drained, every execution has been reported. -/
theorem Sound.reported_of_ended (hs : Sound cfg s) (hended : s.control.endedWell = true)
    (he : s.executions[i]? = some e) : e.stage.isReported = true := by
  obtain ⟨hnot, hzero⟩ := hs.drained (hs.ended hended)
  have hclaimed : e.stage ≠ .claimed := fun heq ↦ hnot _ ((hs.claimed i e he).1 heq)
  have hwaited : e.stage.isWaited ≠ true := fun hwaited ↦ (hs.wg_pos he hwaited).ne' hzero
  rcases hst : e.stage with - | - | - | err | - | - | - | -
  · exact absurd hst hclaimed
  all_goals
    rw [hst] at hwaited
    first | exact absurd rfl hwaited | rfl

/-- **The concurrency ceiling and the clean drain.** In every run of a worker, whatever the broker
and the handlers do and whenever it is cancelled:

* the occupied slots are the goroutines that have not come to giving theirs back, and one more while
  the fetch loop has one;
* so no more than `Concurrency` handlers run at a time, and a `Dequeue` is called with a slot that
  is nobody else's;
* giving a slot back never blocks;
* the jobs claimed are those executed, and an execution is reported exactly once, by the call that
  the outcome of its handler asks for, and not before the handler has ended;
* and when `Run` has returned nil, every job that was claimed has been reported. -/
theorem concurrency_ceiling_and_clean_drain (cfg : Config)
    (hrun : (machine cfg).Run (Possible cfg) h s) :
    (s.slots = s.executions.countP (fun e ↦ e.stage.holdsSlot) +
      if s.control.holdsSlot then 1 else 0) ∧
    s.slots ≤ cfg.concurrency ∧
    s.executions.countP (fun e ↦ e.stage.isRunning) ≤ cfg.concurrency ∧
    (∀ t ∈ h, ∀ r, t.input = .fetch (.dequeue r) → t.before.control.holdsSlot = true ∧
      t.before.executions.countP (fun e ↦ e.stage.holdsSlot) + 1 ≤ cfg.concurrency) ∧
    (∀ e ∈ s.executions, e.stage.holdsSlot = true → 0 < s.slots) ∧
    claimedJobs h = s.executions.map Execution.job ∧
    (∀ i, ∀ e : Execution, s.executions[i]? = some e →
      if e.stage.isReported then
        ∃ now o, Handled h i o ∧ reportsOn cfg h i = [report cfg now e.job (invoke o)]
      else reportsOn cfg h i = []) ∧
    (s.control = .returned none → ∀ e ∈ s.executions, e.stage.isReported = true) := by
  have hs := sound_of_run hrun
  refine ⟨?_, hs.bound, ?_, ?_, ?_, claimedJobs_of_run hrun, ?_, ?_⟩
  · rw [hs.slots]
    cases s.control.holdsSlot <;> rfl
  · have hle : s.executions.countP (fun e ↦ e.stage.isRunning) ≤
        s.executions.countP fun e ↦ e.stage.holdsSlot := by
      refine List.countP_mono_left fun e _ hrunning ↦ ?_
      rcases hst : e.stage with - | - | - | err | - | - | - | - <;> rw [hst] at hrunning <;>
        first | rfl | cases hrunning
    have hcount := hs.slots
    have hbound := hs.bound
    omega
  · intro t ht r hinput
    obtain ⟨older, hbefore, hok⟩ := hrun.of_mem ht
    rw [hinput] at hok
    have hpolling := holdsSlot_of_dequeue hok
    have hs₀ := sound_of_run hbefore
    have hcount := hs₀.slots
    rw [hpolling] at hcount ⊢
    exact ⟨rfl, hcount ▸ hs₀.bound⟩
  · intro e he hholds
    obtain ⟨i, hi⟩ := List.mem_iff_getElem?.1 he
    exact hs.slots_pos hi hholds
  · intro i e he
    have hsettled := settled_of_run hrun i
    rw [he] at hsettled
    have hacc : Accounts cfg h i e := hsettled
    rcases hrep : e.stage.isReported with - | -
    · exact hacc.none hrep
    · exact hacc.once hrep
  · intro hret e he
    obtain ⟨i, hi⟩ := List.mem_iff_getElem?.1 he
    exact hs.reported_of_ended (by rw [hret]; rfl) hi

/-- Two slots, and a second of backoff. -/
def twoSlots : Config := ⟨"w", 2, fun _ ↦ 10 ^ 9⟩

/-- A worker runs two jobs at once. The handler of the first panics and that of the second returns
nil after the shutdown began; a poll in between finds nothing. -/
def twoJobs : List Step :=
  [.fetch .acquire, .fetch (.dequeue (.job { Job.plain "q" "t" 3 with id := "a", attempt := 1 })),
    .fetch .launch, .job 0 .track, .fetch .acquire,
    .fetch (.dequeue (.job { Job.plain "q" "t" 3 with id := "b", attempt := 1 })), .fetch .launch,
    .job 1 .track, .job 0 (.handle (.panicked "boom")), .job 0 (.report 5), .job 0 .untrack,
    .job 0 .release, .fetch .acquire, .fetch (.dequeue .noJob), .fetch .giveBack, .cancel,
    .fetch .interrupt, .job 0 .finish, .job 1 (.handle .succeeded), .job 1 (.report 7),
    .job 1 .untrack, .job 1 .release, .job 1 .finish, .drain .close, .drain .finish, .renew .stop,
    .drain .leave]

theorem concurrency_ceiling_and_clean_drain_panicked :
    ∃ h s, (machine twoSlots).Run (Possible twoSlots) h s ∧ s.control = .returned none ∧
      (∀ e ∈ s.executions, e.stage.isReported = true) ∧
      reportsOn twoSlots h 0 = [.nack "w" "a" 1000000005 "taskq: handler panicked: boom"] ∧
      reportsOn twoSlots h 1 = [.ack "w" "b"] := by
  have hrun : (machine twoSlots).Run (Possible twoSlots) _ _ :=
    .play twoJobs .start (by decide +kernel)
  have hend : ((machine twoSlots).play [] (machine twoSlots).init twoJobs).2.control =
      .returned none := by decide +kernel
  exact ⟨_, _, hrun, hend,
    (concurrency_ceiling_and_clean_drain twoSlots hrun).2.2.2.2.2.2.2 hend, by decide +kernel,
    by decide +kernel⟩

end TaskQueue.Server
