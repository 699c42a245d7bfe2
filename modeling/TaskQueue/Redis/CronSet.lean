import TaskQueue.Redis.Unique

/-!
# Who writes the cron set

The fire times of the schedules are in a sorted set of their own. `ScheduleCronIfAbsent` puts an
entry there if there is none, `ClaimCron` replaces the fire time it names, `RemoveCron` removes an
entry, and no script that handles jobs writes the set (`lookup_cron_exec`).
-/

namespace TaskQueue.Redis

open Script

variable {s : Store} {now : ℤ} {w q id : String}

namespace Store

theorem cron_popJob {vt : ℤ} (n : ℕ) (s : Store) : (popJob now w vt q n s).2.cron = s.cron := by
  fun_induction popJob now w vt q n s with
  | case1 => rfl
  | case2 => rfl
  | case3 n s id rest hready hjob ih => exact ih
  | case4 => rfl

theorem cron_dequeue {vt : ℤ} (qs : List String) (s : Store) :
    (Script.dequeue now w vt qs s).2.cron = s.cron := by
  fun_induction Script.dequeue now w vt qs s with
  | case1 => rfl
  | case2 q qs s h s' hpop => exact (congrArg (·.2.cron) hpop).symm.trans (cron_popJob 20 s)
  | case3 q qs s s' hpop ih =>
    exact ih.trans ((congrArg (·.2.cron) hpop).symm.trans (cron_popJob 20 s))

theorem cron_extend {d : ℤ} (ids : List String) (s : Store) :
    (Script.extend w d ids s).2.cron = s.cron := by
  fun_induction Script.extend w d ids s with
  | case1 => rfl
  | case2 s id ids r hfence _ ih => exact ih
  | case3 s id ids h hfence ih => exact ih

theorem cron_reapLoop (ids : List String) (n : ℕ × ℕ) (s : Store) :
    (reapLoop now q ids n s).2.cron = s.cron := by
  have hrecover (s : Store) (id : String) (h : Hash) : (recover s now q id h).cron = s.cron := by
    rw [recover]
    dsimp only
    split_ifs <;> rfl
  fun_induction reapLoop now q ids n s with
  | case1 => rfl
  | case2 n s id ids hmem s₁ hnone ih => exact ih
  | case3 n s id ids hmem s₁ e hjob n₁ ih => exact ih.trans (hrecover _ _ _)
  | case4 n s id ids hmem ih => exact ih

theorem cron_promoteSet {limit : ℤ} {set : WaitSet} (r : ℕ × Store) :
    (promoteSet now limit set r).2.cron = r.2.cron := by
  have hzrem (s : Store) (id : String) : (zremWait s set id).cron = s.cron := by cases set <;> rfl
  have hloop (ids : List String) (n : ℕ) (s : Store) :
      (promoteLoop set ids n s).2.cron = s.cron := by
    fun_induction promoteLoop set ids n s with
    | case1 => rfl
    | case2 id ids n s hmem s₁ hnone ih => exact ih.trans (hzrem s id)
    | case3 id ids n s hmem s₁ e hjob ih => exact ih.trans (hzrem s id)
    | case4 id ids n s hmem ih => exact ih
  rw [promoteSet]
  split_ifs
  · exact hloop _ _ _
  · rfl

end Store

open Store

/-- A `ClaimCron` wins if the fire time on record is the one it names, and replaces it; else it
leaves the set as it is. -/
theorem claimCron_cases (cfg : Config) (s : Store) (now : ℤ) (id : String) (f t : Time) :
    (exec cfg s ⟨now, .claimCron id f t⟩).1 ≠ .won true ∧
      (exec cfg s ⟨now, .claimCron id f t⟩).2.cron = s.cron ∨
    (exec cfg s ⟨now, .claimCron id f t⟩).1 = .won true ∧ s.cron.lookup id = some (unixMilli f) ∧
      (exec cfg s ⟨now, .claimCron id f t⟩).2.cron = s.cron.insert id (unixMilli t) := by
  have hexec : exec cfg s ⟨now, .claimCron id f t⟩ =
      (claimCron (s.live cfg.visible now) id f t).map (.of .won) fun s ↦ s := rfl
  rw [hexec, claimCron]
  split_ifs with hid
  · exact .inl ⟨Reply.noConfusion, rfl⟩
  rw [cronClaim]
  rcases hscore : (s.live cfg.visible now).cron.lookup id with - | score
  · exact .inl ⟨fun hwon ↦ Bool.noConfusion (Reply.won.inj hwon), rfl⟩
  dsimp only
  split_ifs with hne
  · exact .inl ⟨fun hwon ↦ Bool.noConfusion (Reply.won.inj hwon), rfl⟩
  · obtain rfl := not_not.1 hne
    exact .inr ⟨rfl, hscore, rfl⟩

/-- An entry that `DueCron` reads is on record with the fire time it reads, which is past. -/
theorem mem_dueCron {limit : ℤ} {d : DueCronEntry} (hd : d ∈ dueCron s now limit) :
    s.cron.lookup d.id = some (unixMilli d.fireAt) ∧ unixMilli d.fireAt ≤ now := by
  rw [dueCron] at hd
  split_ifs at hd
  · cases hd
  obtain ⟨c, hc, rfl⟩ := List.mem_map.1 hd
  obtain ⟨hlook, hle, -⟩ := Table.mem_due.1 (List.mem_of_mem_take hc)
  rw [unixMilli, Int.mul_ediv_cancel _ (by decide)]
  exact ⟨hlook, hle⟩

/-- **What a call does to the fire time of an entry.** -/
theorem lookup_cron_exec (cfg : Config) (s : Store) (c : Call) (id : String) :
    (exec cfg s c).2.cron.lookup id = s.cron.lookup id ∨
    (∃ t, c.op = .scheduleCronIfAbsent id t ∧ s.cron.lookup id = none ∧
      (exec cfg s c).2.cron.lookup id = some (unixMilli t)) ∨
    (∃ f t, c.op = .claimCron id f t ∧ (exec cfg s c).1 = .won true ∧
      s.cron.lookup id = some (unixMilli f) ∧
      (exec cfg s c).2.cron.lookup id = some (unixMilli t)) ∨
    c.op = .removeCron id := by
  have hsame (heq : (exec cfg s c).2.cron = s.cron) :
      (exec cfg s c).2.cron.lookup id = s.cron.lookup id := congrArg (·.lookup id) heq
  obtain ⟨now, op⟩ := c
  cases op with
  | enqueue newID wall o =>
    refine .inl (hsame ?_)
    rcases o with - | j
    · rfl
    · show (enqueue _ now newID wall (some j)).2.cron = _
      rcases enqueue_outcome (seen cfg s ⟨now, .enqueue newID wall (some j)⟩) now newID wall j with
        ⟨-, reason, heq⟩ | ⟨-, ⟨u, -, -, heq⟩ | ⟨-, st, heq⟩⟩
      · rw [heq]
        rfl
      · rw [heq]
        rfl
      · rw [heq, place]
        dsimp only
        split_ifs <;> rfl
  | dequeue o =>
    refine .inl (hsame ?_)
    show (claimNext _ now o).2.cron = _
    rcases claimNext_script (seen cfg s ⟨now, .dequeue o⟩) now o with ⟨err, heq⟩ | ⟨-, -, heq⟩
    · rw [heq]
      rfl
    · rw [heq]
      exact cron_dequeue _ _
  | ack w i =>
    refine .inl (hsame ?_)
    show (Script.ack _ now w i _).2.cron = _
    rw [Script.ack]
    rcases fence (seen cfg s ⟨now, .ack w i⟩) w i with r | h
    · rfl
    · dsimp only
      split_ifs <;> rfl
  | nack w i r reason =>
    refine .inl (hsame ?_)
    show (Script.nack _ now w i _ reason).2.cron = _
    rw [Script.nack]
    rcases fence (seen cfg s ⟨now, .nack w i r reason⟩) w i with r | h
    · rfl
    · dsimp only
      split_ifs <;> rfl
  | kill w i reason =>
    refine .inl (hsame ?_)
    show (Script.kill _ now w i reason).2.cron = _
    rw [Script.kill]
    rcases fence (seen cfg s ⟨now, .kill w i reason⟩) w i with r | h <;> rfl
  | extend w ids vt =>
    refine .inl (hsame ?_)
    show (extend _ now w ids vt).2.cron = _
    rw [extend]
    split_ifs
    · rfl
    · rfl
    · exact cron_extend _ _
  | reap q limit =>
    refine .inl (hsame ?_)
    show (reapQueue _ now q limit).2.cron = _
    rw [reapQueue]
    split_ifs
    · rfl
    · rfl
    · exact cron_reapLoop _ _ _
  | promote limit =>
    refine .inl (hsame ?_)
    show (promote _ now limit).2.cron = _
    rw [promote]
    split_ifs
    · rfl
    · rfl
    · exact (cron_promoteSet _).trans (cron_promoteSet _)
  | scheduleCronIfAbsent i t =>
    have hexec : (exec cfg s ⟨now, .scheduleCronIfAbsent i t⟩).2 =
        (scheduleCronIfAbsent (s.live cfg.visible now) i t).2 := rfl
    rw [hexec, scheduleCronIfAbsent]
    split_ifs with hid hsome
    · exact .inl rfl
    · exact .inl rfl
    · have hnone : s.cron.lookup i = none := Option.not_isSome_iff_eq_none.1 hsome
      by_cases hi : id = i
      · subst hi
        exact .inr (.inl ⟨t, rfl, hnone, (Table.lookup_insert_eq ..).trans (if_pos rfl)⟩)
      · exact .inl ((Table.lookup_insert_eq ..).trans (if_neg hi))
  | dueCron limit => exact .inl rfl
  | claimCron i f t =>
    rcases claimCron_cases cfg s now i f t with ⟨-, hcron⟩ | ⟨hwon, hscore, hcron⟩
    · exact .inl (hsame hcron)
    · rw [hcron, Table.lookup_insert_eq]
      by_cases hi : id = i
      · subst hi
        exact .inr (.inr (.inl ⟨f, t, rfl, hwon, hscore, if_pos rfl⟩))
      · exact .inl (if_neg hi)
  | removeCron i =>
    by_cases hi : id = i
    · exact .inr (.inr (.inr (by rw [hi])))
    · exact .inl ((Table.lookup_erase_eq ..).trans (if_neg hi))

end TaskQueue.Redis
