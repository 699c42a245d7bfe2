import Mathlib.Data.List.Basic
import Mathlib.Data.List.Induction
import Mathlib.Data.Option.Basic

/-!
# Families of automata, one for each key

A system that keeps many independent entries under keys is a family of copies of one partial
automaton `δ : σ → ε → Option σ`. An event carries the key it is about; `eventsAt k` are the events
of key `k`, oldest first, and `Follows δ s evs s'` says that **every** key's automaton accepts its
own events and ends where `s'` says.

The point of the family is that a property of one entry's history is a property of one automaton:
no other entry occurs in it. `Follows.single` and `Follows.append` are the only ways a system needs
to build such a statement, one event at a time.
-/

namespace Keyed

variable {κ σ ε : Type*} [DecidableEq κ]

/-- The events of key `k`, in the order they happened. -/
def eventsAt (k : κ) (evs : List (κ × ε)) : List ε :=
  evs.filterMap fun e ↦ if e.1 = k then some e.2 else none

@[simp] theorem eventsAt_nil (k : κ) : eventsAt k ([] : List (κ × ε)) = [] := rfl

@[simp] theorem eventsAt_append (k : κ) (evs evs' : List (κ × ε)) :
    eventsAt k (evs ++ evs') = eventsAt k evs ++ eventsAt k evs' :=
  List.filterMap_append

theorem eventsAt_cons_self (k : κ) (e : ε) (evs : List (κ × ε)) :
    eventsAt k ((k, e) :: evs) = e :: eventsAt k evs := by
  simp [eventsAt]

theorem eventsAt_cons_of_ne {k x : κ} (h : x ≠ k) (e : ε) (evs : List (κ × ε)) :
    eventsAt k ((x, e) :: evs) = eventsAt k evs := by
  simp [eventsAt, h]

theorem mem_eventsAt {k : κ} {e : ε} {evs : List (κ × ε)} :
    e ∈ eventsAt k evs ↔ (k, e) ∈ evs := by
  simp only [eventsAt, List.mem_filterMap, Option.ite_none_right_eq_some, Option.some.injEq]
  constructor
  · rintro ⟨⟨x, e'⟩, hmem, rfl, rfl⟩
    exact hmem
  · intro hmem
    exact ⟨(k, e), hmem, rfl, rfl⟩

/-- One event that happens to each of a list of keys. -/
theorem eventsAt_map_const (k : κ) (e : ε) (l : List κ) :
    eventsAt k (l.map fun x ↦ (x, e)) = List.replicate (l.count k) e := by
  induction l with
  | nil => rfl
  | cons x l ih =>
    rw [List.map_cons]
    by_cases hx : x = k
    · subst hx
      rw [eventsAt_cons_self, ih, List.count_cons_self, List.replicate_succ]
    · rw [eventsAt_cons_of_ne hx, ih, List.count_cons_of_ne hx]

variable (δ : σ → ε → Option σ)

omit [DecidableEq κ] in
/-- **The invariant rule for one automaton**: a relation between the events so far and the state
that every accepted event keeps. -/
theorem foldlM_invariant {δ : σ → ε → Option σ} {P : List ε → σ → Prop} {x x' : σ} {evs : List ε}
    (h0 : P [] x)
    (hstep : ∀ past y e y', e ∈ evs → P past y → δ y e = some y' → P (past ++ [e]) y')
    (hrun : evs.foldlM δ x = some x') : P evs x' := by
  induction evs using List.reverseRecOn generalizing x' with
  | nil =>
    obtain rfl : x = x' := by simpa using hrun
    exact h0
  | append_singleton evs e ih =>
    rw [List.foldlM_append] at hrun
    obtain ⟨y, hy, he⟩ := Option.bind_eq_some_iff.1 hrun
    have hlast : δ y e = some x' := by simpa using he
    have hmem : ∀ e', e' ∈ evs → e' ∈ evs ++ [e] := fun _ h ↦ List.mem_append_left _ h
    refine hstep evs y e x' (by simp) (ih (fun past z e' z' he' ↦ ?_) hy) hlast
    exact hstep past z e' z' (hmem e' he')

/-- Every key's automaton accepts its own events and ends where `s'` says. -/
def Follows (s : κ → σ) (evs : List (κ × ε)) (s' : κ → σ) : Prop :=
  ∀ k, (eventsAt k evs).foldlM δ (s k) = some (s' k)

variable {δ} {s s' s'' : κ → σ} {evs evs' : List (κ × ε)}

theorem Follows.nil (h : ∀ k, s' k = s k) : Follows δ s [] s' := fun k ↦ by
  rw [h k]
  rfl

theorem Follows.append (h : Follows δ s evs s') (h' : Follows δ s' evs' s'') :
    Follows δ s (evs ++ evs') s'' := by
  intro k
  rw [eventsAt_append, List.foldlM_append, h k]
  exact h' k

/-- The later part of a history, from where the earlier part ended. -/
theorem Follows.of_append (h : Follows δ s evs s') (h' : Follows δ s (evs ++ evs') s'') :
    Follows δ s' evs' s'' := by
  intro k
  have hk := h' k
  rw [eventsAt_append, List.foldlM_append, h k] at hk
  exact hk

/-- One event moves one key. -/
theorem Follows.single {k : κ} {e : ε} (hk : δ (s k) e = some (s' k))
    (hne : ∀ x, x ≠ k → s' x = s x) : Follows δ s [(k, e)] s' := by
  intro x
  by_cases hx : k = x
  · subst hx
    rw [eventsAt_cons_self, List.foldlM_cons, hk]
    rfl
  · rw [eventsAt_cons_of_ne hx, hne x (Ne.symm hx)]
    rfl

theorem Follows.cons {k : κ} {e : ε} (hk : δ (s k) e = some (s' k))
    (hne : ∀ x, x ≠ k → s' x = s x) (h : Follows δ s' evs s'') :
    Follows δ s ((k, e) :: evs) s'' :=
  (Follows.single hk hne).append h

end Keyed
