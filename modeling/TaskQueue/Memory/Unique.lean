import TaskQueue.Memory.Services

/-!
# Unique keys of the in-memory broker

A job that is enqueued under a unique key takes the key for a window of time, and until the window
is over other jobs under the key are refused. The broker keeps one entry for each key: the job that
took it last and the end of its window. Two facts make that enough.

* **Nobody else writes the table** (`beside_exec`): claiming, finishing, killing, replaying or
  purging the job neither releases the key nor extends its window.
* **The last window is the one that counts.** A key is only taken when the window of the last job
  that took it is over, and the clock does not go back; so once the last window is over, all are
  (`over_of_last`).

`unique_window` is the property over whole runs that follows.
-/

namespace TaskQueue.Memory

namespace Broker

/-- The unique keys and the registered queues are unchanged. -/
structure Beside (b b' : Broker) : Prop where
  unique : b'.unique = b.unique
  queues : b'.queues = b.queues

theorem Beside.refl (b : Broker) : Beside b b := ⟨rfl, rfl⟩

theorem Beside.trans {b b' b'' : Broker} (h : Beside b b') (h' : Beside b' b'') : Beside b b'' :=
  ⟨h'.unique.trans h.unique, h'.queues.trans h.queues⟩

end Broker

open Broker

variable {b : Broker} {c : Call} {t u : Turn Broker Call} {h : List (Turn Broker Call)}
  {k newID : String} {j j' : Job}

/-! ### Who writes unique keys -/

theorem beside_update {now : Time} {op : Op} {b' : Broker} (henq : ∀ newID o, op ≠ .enqueue newID o)
    (hupdate : Update now b op b') : Beside b b' := by
  cases hupdate with
  | store newID o => exact absurd rfl (henq newID o)
  | recover queues limit hj =>
    rw [recover]
    split_ifs <;> exact ⟨rfl, rfl⟩
  | leave limit set => rcases set with - | - <;> exact ⟨rfl, rfl⟩
  | promote limit set => rcases set with - | - <;> exact ⟨rfl, rfl⟩
  | _ => exact ⟨rfl, rfl⟩

/-- **No operation but `Enqueue` writes a unique key**, or registers a queue. -/
theorem beside_exec (henq : ∀ newID o, c.op ≠ .enqueue newID o) : Beside b (exec b c).2 :=
  rel_exec .refl .trans (fun _ _ ↦ beside_update henq) b

/-- The job that a turn stored under the unique key `k`. -/
def taken (k : String) (t : Turn Broker Call) : Option Job :=
  match t.input.op, reply t with
  | .enqueue _ _, .stored j => if j.uniqueKey = k then some j else none
  | _, _ => none

/-- The end of the window of a job that was stored at a time. -/
def windowEnd (t : Turn Broker Call) (j : Job) : Time := t.input.now + j.uniqueWindow

/-- An `Enqueue` that stores a job under a key writes the key. -/
theorem unique_store (b : Broker) (now : Time) (j : Job) :
    (b.store now j).unique =
      if j.uniqueKey = "" then b.unique
      else b.unique.insert j.uniqueKey ⟨j.id, now + j.uniqueWindow⟩ := by
  rw [store]
  split_ifs <;> rfl

/-- **What a turn does to the key `k`**: if it stores a job under it, the key is that job's until
the end of its window, and otherwise the key stays as it is. -/
theorem lookup_unique_after (hk : k ≠ "") (t : Turn Broker Call) :
    (machine.after t).unique.lookup k =
      (taken k t).elim (t.before.unique.lookup k) fun j ↦ some ⟨j.id, windowEnd t j⟩ := by
  by_cases henq : ∃ newID o, t.input.op = .enqueue newID o
  · obtain ⟨newID, o, hop⟩ := henq
    have hexec : exec t.before t.input =
        (t.before.enqueue t.input.now newID o).map (.of .stored) id := by
      rw [exec, hop]
    have hafter : machine.after t = (t.before.enqueue t.input.now newID o).2 :=
      congrArg Prod.snd hexec
    have hreply : reply t = .of .stored (t.before.enqueue t.input.now newID o).1 :=
      congrArg Prod.fst hexec
    rw [hafter, taken, hop, hreply]
    rcases enqueue_cases t.before t.input.now newID o with ⟨e, heq⟩ | ⟨j, -, heq⟩
    · rw [heq]
      rfl
    · rw [heq]
      dsimp only [Reply.of]
      rw [unique_store]
      by_cases hkey : (stamped t.input.now newID j).uniqueKey = k
      · rw [if_neg (hkey ▸ hk), if_pos hkey, hkey, AList.lookup_insert]
        rfl
      · rw [if_neg hkey]
        split_ifs
        · rfl
        · exact AList.lookup_insert_ne (Ne.symm hkey)
  · have hnone : taken k t = none := by
      rw [taken]
      split
      · next hop _ => exact absurd ⟨_, _, hop⟩ henq
      · rfl
    rw [hnone]
    exact congrArg (AList.lookup k) (beside_exec fun newID o hop ↦ henq ⟨newID, o, hop⟩).unique

/-! ### Runs -/

/-- The job that took the key last, with the turn that stored it. -/
def lastTaken (k : String) (h : List (Turn Broker Call)) : Option (Turn Broker Call × Job) :=
  h.findSome? fun t ↦ (taken k t).map fun j ↦ (t, j)

/-- **The table has the job that took the key last.** -/
theorem lookup_unique_of_run {ok : List (Turn Broker Call) → Broker → Call → Prop}
    (hrun : machine.Run ok h b) (hk : k ≠ "") :
    b.unique.lookup k = (lastTaken k h).map fun w ↦ ⟨w.2.id, windowEnd w.1 w.2⟩ := by
  refine hrun.invariant (P := fun h b ↦ b.unique.lookup k =
    (lastTaken k h).map fun w ↦ ⟨w.2.id, windowEnd w.1 w.2⟩) (AList.lookup_empty k) ?_
  intro h b c _ ih _
  have hafter := lookup_unique_after hk ⟨b, c⟩
  rw [lastTaken, List.findSome?_cons]
  rcases htaken : taken k ⟨b, c⟩ with - | j
  · rw [htaken] at hafter
    exact hafter.trans ih
  · rw [htaken] at hafter
    exact hafter

/-- The turn was an `Enqueue` of the job `j` that stored it under `jobID`. -/
def Submits (t : Turn Broker Call) (j : Job) (jobID : String) : Prop :=
  ∃ newID j', t.input.op = .enqueue newID (some j) ∧ reply t = .stored j' ∧ j'.id = jobID

theorem submits_of_taken (htaken : taken k t = some j') :
    ∃ j, Submits t j j'.id ∧ j.uniqueKey = k := by
  rw [taken] at htaken
  split at htaken
  · next newID o j'' hop hreply =>
    split_ifs at htaken with hkey
    obtain rfl := Option.some.inj htaken
    obtain ⟨j, rfl, rfl⟩ := stored_of_exec hop hreply
    exact ⟨j, ⟨newID, _, hop, hreply, rfl⟩, hkey⟩
  · cases htaken

/-- **Who holds a key was stored under it**, by a call of the run that submitted a job with this
key. -/
theorem holder_of_run {ok : List (Turn Broker Call) → Broker → Call → Prop}
    (hrun : machine.Run ok h b) {now : Time} {jobID : String}
    (hholder : b.uniqueHolder now k = some jobID) :
    ∃ t ∈ h, ∃ j, Submits t j jobID ∧ j.uniqueKey = k := by
  rw [uniqueHolder] at hholder
  split_ifs at hholder with hk
  obtain ⟨e, he, hid⟩ := Option.bind_eq_some_iff.1 hholder
  split_ifs at hid
  obtain rfl := Option.some.inj hid
  rw [lookup_unique_of_run hrun hk] at he
  obtain ⟨w, hlast, rfl⟩ := Option.map_eq_some_iff.1 he
  obtain ⟨t, ht, htaken⟩ := List.exists_of_findSome?_eq_some hlast
  obtain ⟨j, hj, rfl⟩ := Option.map_eq_some_iff.1 htaken
  exact ⟨t, ht, submits_of_taken hj⟩

/-- **A duplicate has an original**: an `Enqueue` that is refused as a duplicate of a job finds that
job's call in the run, with the same unique key. -/
theorem original_of_run {ok : List (Turn Broker Call) → Broker → Call → Prop}
    (hrun : machine.Run ok h b) {jobID : String} (hop : c.op = .enqueue newID (some j))
    (hreply : (exec b c).1 = .failed (.duplicate k jobID)) :
    ∃ t ∈ h, ∃ j', Submits t j' jobID ∧ j'.uniqueKey = j.uniqueKey := by
  simp only [exec, hop, Prod.map_fst, enqueue] at hreply
  split_ifs at hreply
  · cases hreply
  · cases hreply
  · cases hreply
  · rcases hholder : b.uniqueHolder c.now j.uniqueKey with - | existing
    · rw [hholder] at hreply
      cases hreply
    · rw [hholder] at hreply
      cases hreply
      exact holder_of_run hrun hholder

/-- The windows of all jobs that took the key are over. -/
def Over (k : String) (h : List (Turn Broker Call)) (now : Time) : Prop :=
  ∀ t ∈ h, ∀ j, taken k t = some j → windowEnd t j ≤ now

/-- An `Enqueue` under a key is refused exactly while the key is held. -/
theorem uniqueHolder_eq_none_iff (hk : k ≠ "") (now : Time) :
    b.uniqueHolder now k = none ↔ ∀ e, b.unique.lookup k = some e → e.expiresAt ≤ now := by
  rw [uniqueHolder, if_neg hk]
  rcases b.unique.lookup k with - | e
  · exact iff_of_true rfl fun e he ↦ nomatch he
  · rw [Option.bind_some]
    split_ifs with hlt
    · exact iff_of_false (fun heq ↦ nomatch heq) fun hall ↦ absurd (hall e rfl) (not_le.2 hlt)
    · refine iff_of_true rfl fun e' he' ↦ ?_
      rw [← Option.some.inj he']
      exact not_lt.1 hlt

/-- A key is taken only while nobody holds it. -/
theorem uniqueHolder_of_taken (htaken : taken k t = some j) :
    t.before.uniqueHolder t.input.now k = none := by
  rw [taken] at htaken
  split at htaken
  · next newID o j' hop hreply =>
    split_ifs at htaken with hkey
    obtain ⟨j₀, rfl, rfl⟩ := stored_of_exec hop hreply
    have hkey₀ : j₀.uniqueKey = k := hkey
    rw [reply, exec, hop] at hreply
    rcases hholder : t.before.uniqueHolder t.input.now k with - | existing
    · rfl
    · rw [← hkey₀] at hholder
      simp only [Prod.map_fst, enqueue, hholder] at hreply
      split_ifs at hreply <;> cases hreply
  · cases htaken

/-- **Once the last window is over, all are.** -/
theorem over_of_last (hrun : machine.Run Clocked h b) (hk : k ≠ "") :
    ∀ now, (∀ t ∈ h, t.input.now ≤ now) →
      (∀ w, lastTaken k h = some w → windowEnd w.1 w.2 ≤ now) → Over k h now := by
  refine hrun.invariant (P := fun h _ ↦ ∀ now, (∀ t ∈ h, t.input.now ≤ now) →
    (∀ w, lastTaken k h = some w → windowEnd w.1 w.2 ≤ now) → Over k h now)
    (fun now _ _ t ht ↦ nomatch ht) ?_
  intro h b c hrun ih hguard now hclock hlast t ht j htaken
  rw [lastTaken, List.findSome?_cons] at hlast
  rcases hnew : taken k ⟨b, c⟩ with - | j₀ <;> rw [hnew] at hlast
  · rcases List.mem_cons.1 ht with rfl | ht
    · rw [hnew] at htaken
      cases htaken
    · exact ih now (fun u hu ↦ hclock u (List.mem_cons_of_mem _ hu)) hlast t ht j htaken
  · rcases List.mem_cons.1 ht with rfl | ht
    · obtain rfl : j₀ = j := Option.some.inj (hnew.symm.trans htaken)
      exact hlast _ rfl
    · -- all earlier windows were over when this one began
      have hheld := (uniqueHolder_eq_none_iff hk c.now).1 (uniqueHolder_of_taken hnew)
      rw [lookup_unique_of_run hrun hk] at hheld
      have hover := ih c.now hguard fun w hw ↦ hheld _ (by rw [hw]; rfl)
      exact (hover t ht j htaken).trans (hclock _ List.mem_cons_self)

/-- **Unique keys collapse enqueues for their whole window and no longer.** In every run whose clock
does not go back, an `Enqueue` under a unique key that passes validation on an open broker succeeds
exactly if the windows of all jobs stored under the key are over. If it is refused, the error names
the job that was stored under the key last. -/
theorem unique_window (hrun : machine.Run Clocked (t :: h) b)
    (hop : t.input.op = .enqueue newID (some j)) (hqueue : j.queue ≠ "") (htype : j.type ≠ "")
    (hopen : t.before.closed = false) (hk : j.uniqueKey ≠ "") :
    ((∃ j', reply t = .stored j') ↔ Over j.uniqueKey h t.input.now) ∧
    ∀ e, reply t = .failed e → ∃ newer u older j', h = newer ++ u :: older ∧
      taken j.uniqueKey u = some j' ∧ (∀ v ∈ newer, taken j.uniqueKey v = none) ∧
      e = .duplicate j.uniqueKey j'.id := by
  obtain ⟨hprev, hclock, -⟩ := hrun.of_cons
  have hlookup := lookup_unique_of_run hprev hk
  have hreply : reply t = .of .stored (t.before.enqueue t.input.now newID (some j)).1 := by
    rw [reply, exec, hop]
    rfl
  rw [enqueue, if_neg hqueue, if_neg htype, if_neg (by rw [hopen]; decide)] at hreply
  rcases hholder : t.before.uniqueHolder t.input.now j.uniqueKey with - | existing <;>
    rw [hholder] at hreply
  · refine ⟨iff_of_true ⟨_, hreply⟩ ?_, fun e he ↦ ?_⟩
    · refine over_of_last hprev hk _ hclock fun w hw ↦ ?_
      refine (uniqueHolder_eq_none_iff hk _).1 hholder ⟨w.2.id, windowEnd w.1 w.2⟩ ?_
      rw [hlookup, hw]
      rfl
    · rw [hreply] at he
      cases he
  · -- the key is held by the job that took it last, whose window is not over
    rw [uniqueHolder, if_neg hk, hlookup] at hholder
    rcases hw : lastTaken j.uniqueKey h with - | w <;> rw [hw] at hholder
    · cases hholder
    · rw [Option.map_some, Option.bind_some] at hholder
      split_ifs at hholder with hlt
      obtain rfl := Option.some.inj hholder
      obtain ⟨newer, u, older, rfl, hu, hnewer⟩ := List.findSome?_eq_some_iff.1 hw
      obtain ⟨j', hj', rfl⟩ := Option.map_eq_some_iff.1 hu
      refine ⟨iff_of_false ?_ fun hover ↦ ?_, fun e he ↦ ?_⟩
      · rintro ⟨j₁, hj₁⟩
        rw [hreply] at hj₁
        cases hj₁
      · have hend := hover u (List.mem_append_right _ List.mem_cons_self) j' hj'
        exact absurd hend (not_le.2 hlt)
      · rw [hreply] at he
        refine ⟨newer, u, older, j', rfl, hj', fun v hv ↦ ?_, ?_⟩
        · exact Option.map_eq_none_iff.1 (hnewer v hv)
        · exact (Reply.failed.inj he).symm

/-- A job holds its key for 10 ns, is claimed and completed; a second job under the key is refused
at 5 ns, because the window is not over. -/
theorem unique_window_refused : ∃ t h b, machine.Run Clocked (t :: h) b ∧ h.length = 3 ∧
    t.before.jobs.lookup "a" = none ∧ reply t = .failed (.duplicate "k" "a") ∧
    ¬ Over "k" h t.input.now := by
  let job : Job := { Job.plain "q" "t" 3 with uniqueKey := "k", uniqueTTL := 10 }
  have hrun : machine.Run Clocked _ _ := .step ⟨5, .enqueue "b" (some job)⟩
    (.step ⟨4, .ack "w" "a"⟩ (.step ⟨3, .dequeue ⟨"w", ["q"], 10⟩⟩
      (.step ⟨1, .enqueue "a" (some job)⟩ .start (by simp [Clocked])) (by simp [Clocked]))
      (by simp [Clocked])) (by simp [Clocked])
  have hspec := unique_window hrun rfl (by decide) (by decide) (by decide) (by decide)
  refine ⟨_, _, _, hrun, rfl, by decide, rfl, fun hover ↦ ?_⟩
  obtain ⟨j', hj'⟩ := hspec.1.2 hover
  cases hj'

end TaskQueue.Memory
