import TaskQueue.Redis.Unique

/-!
# Unique keys and the jobs stored under them

A unique key is held for the window of the job that took it, whatever becomes of the job. So at
every time the **jobs whose window is open** are the one that holds the key, or none
(`openJobs_eq_holder`): an `Enqueue` that finds the key held stores nothing, and one that finds it
free finds every earlier window over.
-/

namespace TaskQueue.Redis

open Script Store

variable {cfg : Config} {s : Store} {c : Call} {k : String} {h : List (Turn Store Call)}

variable (cfg k) in
/-- The job that a turn stored under a key: its ID, and when its window ends. -/
def storedUnder (t : Turn Store Call) : Option (String × ℤ) :=
  match t.input.op, reply cfg t with
  | .enqueue _ _ (some j), .stored j' =>
    if j.uniqueKey = k then some (j'.id, t.input.now + milliseconds j.uniqueWindow) else none
  | _, _ => none

variable (cfg k) in
/-- The job that a turn stored under a key, if its window is open at `now`. -/
def openJob (now : ℤ) (t : Turn Store Call) : Option String :=
  (storedUnder cfg k t).bind fun p ↦ if cfg.visible now p.2 then some p.1 else none

variable (cfg k) in
/-- The jobs stored under a key whose windows are open at `now`, newest first. -/
def openJobs (now : ℤ) (h : List (Turn Store Call)) : List String := h.filterMap (openJob cfg k now)

theorem openJobs_cons (now : ℤ) (t : Turn Store Call) (h : List (Turn Store Call)) :
    openJobs cfg k now (t :: h) = (openJob cfg k now t).toList ++ openJobs cfg k now h := by
  rw [openJobs, List.filterMap_cons]
  rcases openJob cfg k now t with - | jobID
  · rfl
  · rfl

variable (k) in
/-- What a run may do next: the server time does not go back, and whoever uses the key asks for a
window of at least a millisecond. -/
structure Windowed (h : List (Turn Store Call)) (_ : Store) (c : Call) : Prop where
  clock : ∀ t ∈ h, t.input.now ≤ c.now
  window : ∀ newID wall j, c.op = .enqueue newID wall (some j) → j.uniqueKey = k →
    0 < milliseconds j.uniqueWindow

theorem exec_enqueue {newID : String} {wall : Time} {o : Option Job}
    (hop : c.op = .enqueue newID wall o) :
    exec cfg s c = (enqueue (seen cfg s c) c.now newID wall o).map (.of .stored) id := by
  rw [exec, hop]
  rfl

theorem storedUnder_of_enqueue {newID : String} {wall : Time} {j : Job}
    (hop : c.op = .enqueue newID wall (some j)) (hkey : j.uniqueKey = k) :
    storedUnder cfg k ⟨s, c⟩ = ((enqueue (seen cfg s c) c.now newID wall (some j)).1.toOption).map
      fun j' ↦ (j'.id, c.now + milliseconds j.uniqueWindow) := by
  simp only [storedUnder, reply, exec_enqueue hop, hop, Prod.map_fst]
  rcases (enqueue (seen cfg s c) c.now newID wall (some j)).1 with e | j'
  · rfl
  · exact if_pos hkey

variable (cfg) in
/-- **What a call does to a key**: it leaves the key and stores nothing under it, or it finds the
key free and takes it for the job it stores. -/
theorem storedUnder_cases (hk : k ≠ "") (hok : Windowed k h s c) :
    storedUnder cfg k ⟨s, c⟩ = none ∧ (exec cfg s c).2.unique k = (seen cfg s c).unique k ∨
    ∃ jobID expireAt, storedUnder cfg k ⟨s, c⟩ = some (jobID, expireAt) ∧
      (seen cfg s c).unique k = none ∧ (exec cfg s c).2.unique k = some ⟨jobID, expireAt⟩ := by
  by_cases henq : ∃ newID wall j, c.op = .enqueue newID wall (some j) ∧ j.uniqueKey = k
  · obtain ⟨newID, wall, j, hop, hkey⟩ := henq
    have hwindow : uniqueTTL (j.assigned newID) = milliseconds j.uniqueWindow :=
      if_neg (hkey ▸ hk)
    have hpos := hok.window newID wall j hop hkey
    rw [storedUnder_of_enqueue hop hkey, exec_enqueue hop]
    rcases enqueue_outcome (seen cfg s c) c.now newID wall j with
      ⟨-, reason, heq⟩ | ⟨-, ⟨u, -, -, heq⟩ | ⟨hfree, st, heq⟩⟩
    · rw [heq]
      exact .inl ⟨rfl, rfl⟩
    · rw [heq]
      exact .inl ⟨rfl, rfl⟩
    · rw [hwindow, hkey] at hfree
      refine .inr ⟨(j.assigned newID).id, c.now + milliseconds j.uniqueWindow, ?_, hfree hpos, ?_⟩
      · rw [heq]
        rfl
      · rw [heq]
        show (place ((seen cfg s c).takeKey c.now (j.assigned newID)) _).unique k = _
        rw [unique_place, takeKey, hwindow, if_pos hpos, ← hkey]
        exact Function.update_self _ _ _
  · refine .inl ⟨?_, unique_run fun newID wall j hop hkey ↦ henq ⟨newID, wall, j, hop, hkey⟩⟩
    unfold storedUnder
    split
    · next newID wall j j' hop hreply =>
      exact if_neg fun hkey ↦ henq ⟨newID, wall, j, hop, hkey⟩
    · rfl

/-- The holder of a key at a later time. -/
theorem live_live_unique (hvisible : Expires cfg.visible) {now now' : ℤ} (hle : now ≤ now')
    (s : Store) :
    ((s.unique k).filter fun u ↦ cfg.visible now u.expireAt).filter
        (fun u ↦ cfg.visible now' u.expireAt) =
      (s.unique k).filter fun u ↦ cfg.visible now' u.expireAt :=
  hvisible.filter_filter hle (s.unique k) fun u ↦ some u.expireAt

/-- **The jobs whose window is open are the holder of the key.** In every run, and at every time
from then on. -/
theorem openJobs_eq_holder (hvisible : Expires cfg.visible)
    (hk : k ≠ "") (hrun : (machine cfg).Run (Windowed k) h s) :
    ∀ now, (∀ t ∈ h, t.input.now ≤ now) →
      openJobs cfg k now h = ((s.live cfg.visible now).unique k).toList.map (·.value) := by
  induction hrun with
  | start => exact fun now _ ↦ rfl
  | @step h s c hrun hok ih =>
    intro now hnow
    have hle : c.now ≤ now := hnow ⟨s, c⟩ List.mem_cons_self
    have hold : openJobs cfg k now h = _ := ih now fun t ht ↦ hnow t (List.mem_cons_of_mem _ ht)
    have hseen := live_live_unique (k := k) hvisible hle s
    rw [openJobs_cons, openJob, hold]
    rcases storedUnder_cases cfg hk hok with
      ⟨hnone, hsame⟩ | ⟨jobID, expireAt, hstored, hfree, htaken⟩
    · have hlive : (((machine cfg).next s c).live cfg.visible now).unique k =
          (s.live cfg.visible now).unique k :=
        (congrArg (Option.filter fun u : UniqueKey ↦ cfg.visible now u.expireAt) hsame).trans hseen
      rw [hnone, hlive]
      rfl
    · have hover : (s.live cfg.visible now).unique k = none :=
        hseen.symm.trans
          (congrArg (Option.filter fun u : UniqueKey ↦ cfg.visible now u.expireAt) hfree)
      have hlive : (((machine cfg).next s c).live cfg.visible now).unique k =
          if cfg.visible now expireAt then some ⟨jobID, expireAt⟩ else none :=
        congrArg (Option.filter fun u : UniqueKey ↦ cfg.visible now u.expireAt) htaken
      rw [hstored, hover, hlive]
      split_ifs with hopen
      · simp [hopen]
      · simp [hopen]

end TaskQueue.Redis
