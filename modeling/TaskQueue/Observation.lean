import TaskQueue.Lifecycle
import TaskQueue.Transition.Run

/-!
# Brokers as observations of job lives

A broker does not store lives, it **shows** them: `view b id` is the life its data amount to for the
name `id`. Two things keep the view from being the life itself. A broker may forget a job once it is
done, at the moment it finishes or any time later, so `Life.Shown` allows a done job to be shown as
nothing. And one call may touch many jobs, so a call is a `Path`: a sequence of moves, each about
one job and each an event the automaton accepts from the view the broker had.

`follows_of_run` is the only result the two brokers need from here: if every call is a path of its
events and no name is enqueued twice, then the whole history of every name is accepted by the
automaton, and ends in a life the broker shows.
-/

namespace TaskQueue

open Keyed

/-- A job whose life is `o` may be shown as `v`: as it is, or as nothing once it is done. -/
def Life.Shown (o v : Option Life) : Prop :=
  v = o ∨ v = none ∧ ∃ l, o = some l ∧ l.phase = .done

namespace Life.Shown

variable {o v v' : Option Life}

theorem refl (o : Option Life) : Life.Shown o o := .inl rfl

theorem trans (h : Life.Shown o v) (h' : Life.Shown v v') : Life.Shown o v' := by
  rcases h with rfl | ⟨rfl, hdone⟩
  · exact h'
  · rcases h' with rfl | ⟨-, _, hl, -⟩
    · exact .inr ⟨rfl, hdone⟩
    · cases hl

/-- A job that is shown as something is shown as it is. -/
theorem eq_of_some {l : Life} (h : Life.Shown o (some l)) : o = some l := by
  rcases h with h | ⟨h, -⟩
  · exact h.symm
  · cases h

end Life.Shown

section Path

variable {β : Type*} (spent : ℤ → ℤ → Bool) (view : β → String → Option Life)

/-- The moves a call makes, one job at a time. -/
inductive Path : β → List (String × Event) → β → Prop
  | nil (b : β) : Path b [] b
  /-- No job moves, but jobs that are done may be forgotten. -/
  | forget {b b' b'' : β} {evs : List (String × Event)}
      (h : ∀ id, Life.Shown (view b id) (view b' id)) : Path b' evs b'' → Path b evs b''
  /-- One job moves by an event its life accepts, and the other lives are untouched. -/
  | move {b b' b'' : β} {id : String} {e : Event} {o : Option Life} {evs : List (String × Event)}
      (hne : ∀ x, x ≠ id → view b' x = view b x)
      (he : Life.advance spent (view b id) e = some o) (hshown : Life.Shown o (view b' id)) :
      Path b' evs b'' → Path b ((id, e) :: evs) b''

variable {spent view} {b b' b'' : β} {evs evs' : List (String × Event)}

theorem Path.quiet (h : ∀ id, Life.Shown (view b id) (view b' id)) : Path spent view b [] b' :=
  .forget h (.nil b')

theorem Path.append (h : Path spent view b evs b') (h' : Path spent view b' evs' b'') :
    Path spent view b (evs ++ evs') b'' := by
  induction h with
  | nil b => exact h'
  | forget hshown _ ih => exact .forget hshown (ih h')
  | move hne he hshown _ ih => exact .move hne he hshown (ih h')

/-- The lives behind the views follow the events of a path. A name the path enqueues has to be new,
which its view alone does not tell: a done job may already have been forgotten. -/
theorem Path.follows (hp : Path spent view b evs b') : ∀ {a : String → Option Life},
    (∀ id, Life.Shown (a id) (view b id)) →
    (∀ id l, (id, .enqueued l) ∈ evs → evs = [(id, .enqueued l)] ∧ a id = none) →
    ∃ a', Follows (Life.advance spent) a evs a' ∧ ∀ id, Life.Shown (a' id) (view b' id) := by
  induction hp with
  | nil b =>
    intro a hview _
    exact ⟨a, .nil fun _ ↦ rfl, hview⟩
  | forget h _ ih =>
    intro a hview hnew
    exact ih (fun id ↦ (hview id).trans (h id)) hnew
  | @move b b₁ b' id e o evs hne he hshown hp ih =>
    intro a hview hnew
    -- the event is accepted from the life itself, not only from the view of it
    have hlife : a id = view b id := by
      rcases hview id with h | ⟨hnone, l, hl, -⟩
      · exact h.symm
      · rw [hnone] at he
        obtain ⟨l', rfl, -, -⟩ := Life.advance_none_iff.1 he
        exact (hnew id l' List.mem_cons_self).2.trans hnone.symm
    have hrest : ∀ id' l, (id', .enqueued l) ∈ evs →
        evs = [(id', .enqueued l)] ∧ Function.update a id o id' = none := by
      intro id' l hmem
      have hnil := (hnew id' l (List.mem_cons_of_mem _ hmem)).1
      rw [(List.cons.inj hnil).2] at hmem
      cases hmem
    have hview' : ∀ x, Life.Shown (Function.update a id o x) (view b₁ x) := by
      intro x
      by_cases hx : x = id
      · subst hx
        rwa [Function.update_self]
      · rw [Function.update_of_ne hx, hne x hx]
        exact hview x
    obtain ⟨a', hfollows, hshown'⟩ := ih hview' hrest
    refine ⟨a', hfollows.cons ?_ fun x hx ↦ Function.update_of_ne hx _ _, hshown'⟩
    rw [Function.update_self, hlife]
    exact he

/-- A job that is shown alive stays so along a path that does not end it. -/
theorem Path.alive {id : String} (hp : Path spent view b evs b') :
    (∃ l, view b id = some l ∧ l.phase ≠ .done) → (∀ e, (id, e) ∈ evs → e.isEnd = false) →
      ∃ l, view b' id = some l ∧ l.phase ≠ .done := by
  induction hp with
  | nil b => exact fun h _ ↦ h
  | forget hshown _ ih =>
    rintro ⟨l, hl, halive⟩ hend
    rcases hshown id with h | ⟨-, l', hl', hdone⟩
    · exact ih ⟨l, h.trans hl, halive⟩ hend
    · rw [hl] at hl'
      cases hl'
      exact absurd hdone halive
  | @move b b₁ b' x e o evs hne he hshown _ ih =>
    intro hlive hend
    refine ih ?_ fun e' h ↦ hend e' (List.mem_cons_of_mem _ h)
    by_cases hx : id = x
    · subst hx
      obtain ⟨l', rfl, hdone⟩ := Life.advance_done_iff he
      have halive : l'.phase ≠ .done := by simp [hdone, hend e List.mem_cons_self]
      rcases hshown with h | ⟨-, l, hl, h⟩
      · exact ⟨l', h, halive⟩
      · cases hl
        exact absurd h halive
    · rw [hne id hx]
      exact hlive

/-- A name that has no life gets none along a path that does not enqueue it. -/
theorem Path.absent {id : String} (hp : Path spent view b evs b') :
    view b id = none → (∀ l, (id, .enqueued l) ∉ evs) → view b' id = none := by
  induction hp with
  | nil b => exact fun h _ ↦ h
  | forget hshown _ ih =>
    intro hnone hnew
    refine ih ?_ hnew
    rcases hshown id with h | ⟨h, -⟩
    · exact h.trans hnone
    · exact h
  | @move b b₁ b' x e o evs hne he hshown _ ih =>
    intro hnone hnew
    refine ih ?_ fun l h ↦ hnew l (List.mem_cons_of_mem _ h)
    by_cases hx : id = x
    · subst hx
      rw [hnone] at he
      obtain ⟨l, rfl, -, -⟩ := Life.advance_none_iff.1 he
      exact absurd List.mem_cons_self (hnew l)
    · rw [hne id hx]
      exact hnone

end Path

/-! ### Histories -/

section History

variable {β ι : Type*} (events : β → ι → List (String × Event))

/-- The events of a history, oldest first. -/
def history : List (Turn β ι) → List (String × Event)
  | [] => []
  | t :: h => history h ++ events t.before t.input

variable {events}

theorem history_append (newer older : List (Turn β ι)) :
    history events (newer ++ older) = history events older ++ history events newer := by
  induction newer with
  | nil => simp [history]
  | cons t newer ih => simp [history, ih]

theorem mem_history {h : List (Turn β ι)} {x : String × Event} :
    x ∈ history events h ↔ ∃ t ∈ h, x ∈ events t.before t.input := by
  induction h with
  | nil => simp [history]
  | cons t h ih => simp [history, ih, or_comm]

/-- **Counting events by turns.** If a turn adds one event of a kind exactly if it is of the kind
`q`, then the history has as many events of the kind as turns. -/
theorem countP_eventsAt_history {h : List (Turn β ι)} {id : String} {p : Event → Bool}
    {q : Turn β ι → Bool} (hturn : ∀ t ∈ h,
      (eventsAt id (events t.before t.input)).countP p = if q t then 1 else 0) :
    (eventsAt id (history events h)).countP p = h.countP q := by
  induction h with
  | nil => rfl
  | cons t h ih =>
    rw [history, eventsAt_append, List.countP_append, hturn t List.mem_cons_self,
      ih fun u hu ↦ hturn u (List.mem_cons_of_mem _ hu), List.countP_cons]

variable {spent : ℤ → ℤ → Bool} {view : β → String → Option Life} {M : Machine β ι}
  {ok : List (Turn β ι) → β → ι → Prop} {h : List (Turn β ι)} {s : β}

/-- A name that was never enqueued has no life. -/
theorem none_of_not_enqueued {evs : List Event} {o : Option Life}
    (hrun : evs.foldlM (Life.advance spent) none = some o) (hnew : ∀ l, .enqueued l ∉ evs) :
    o = none := by
  cases evs with
  | nil => simpa using hrun.symm
  | cons e evs =>
    rw [List.foldlM_cons] at hrun
    obtain ⟨o₁, he, -⟩ := Option.bind_eq_some_iff.1 hrun
    obtain ⟨l, rfl, -, -⟩ := Life.advance_none_iff.1 he
    exact absurd List.mem_cons_self (hnew l)

/-- Only names enqueued before have a life. -/
theorem enqueued_of_ne_none {evs : List (String × Event)} {a : String → Option Life} {id : String}
    (hfollows : Follows (Life.advance spent) (fun _ ↦ none) evs a) (hid : a id ≠ none) :
    ∃ l, (id, .enqueued l) ∈ evs := by
  by_contra hnever
  exact hid (none_of_not_enqueued (hfollows id) fun l hl ↦ hnever ⟨l, mem_eventsAt.1 hl⟩)

/-- Only names enqueued before are shown. -/
theorem enqueued_of_shown {evs : List (String × Event)} {a : String → Option Life} {id : String}
    (hfollows : Follows (Life.advance spent) (fun _ ↦ none) evs a)
    (hshown : Life.Shown (a id) (view s id)) (hid : view s id ≠ none) :
    ∃ l, (id, .enqueued l) ∈ evs := by
  obtain ⟨l, hl⟩ := Option.ne_none_iff_exists'.1 hid
  rw [hl] at hshown
  exact enqueued_of_ne_none hfollows (by simp [hshown.eq_of_some])

/-- **Every history is a family of lives.** Let an invariant be kept by every admitted call, let the
call be a path of its events, and let a call that enqueues a name do nothing else and be the first
to use it. Then in every run the invariant holds, and every name's history is accepted by the
automaton and ends in a life the broker shows.

The step may use that only names enqueued before are shown: that a name is new to the broker follows
from its being new to the run. -/
theorem follows_of_run {Inv : β → Prop} (hinit : ∀ id, view M.init id = none)
    (hinv : Inv M.init)
    (hstep : ∀ h s i, Inv s → (∀ id, view s id ≠ none → ∃ l, (id, .enqueued l) ∈ history events h) →
      ok h s i → Inv (M.next s i) ∧ Path spent view s (events s i) (M.next s i))
    (hfresh : ∀ h s i, ok h s i → ∀ id l, (id, .enqueued l) ∈ events s i →
      events s i = [(id, .enqueued l)] ∧ ∀ l', (id, .enqueued l') ∉ history events h)
    (hrun : M.Run ok h s) :
    Inv s ∧ ∃ a, Follows (Life.advance spent) (fun _ ↦ none) (history events h) a ∧
      ∀ id, Life.Shown (a id) (view s id) := by
  refine hrun.invariant (P := fun h s ↦ Inv s ∧ ∃ a, Follows (Life.advance spent) (fun _ ↦ none)
    (history events h) a ∧ ∀ id, Life.Shown (a id) (view s id)) ?_ ?_
  · exact ⟨hinv, _, .nil fun _ ↦ rfl, fun id ↦ .inl (hinit id)⟩
  · rintro h s i hrun ⟨hs, a, hfollows, hshown⟩ hok
    have hnew : ∀ id l, (id, .enqueued l) ∈ events s i →
        events s i = [(id, .enqueued l)] ∧ a id = none := by
      intro id l hmem
      obtain ⟨hone, hunused⟩ := hfresh h s i hok id l hmem
      refine ⟨hone, by_contra fun hid ↦ ?_⟩
      obtain ⟨l', hl'⟩ := enqueued_of_ne_none hfollows hid
      exact hunused l' hl'
    have hseen : ∀ id, view s id ≠ none → ∃ l, (id, .enqueued l) ∈ history events h :=
      fun id hid ↦ enqueued_of_shown hfollows (hshown id) hid
    obtain ⟨hinv', hpath⟩ := hstep h s i hs hseen hok
    obtain ⟨a', hmoves, hshown'⟩ := hpath.follows hshown hnew
    exact ⟨hinv', a', hfollows.append hmoves, hshown'⟩

end History

end TaskQueue
