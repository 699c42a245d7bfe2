import Mathlib.Data.List.Count
import Mathlib.Logic.Function.Basic
import Mathlib.Tactic.ByContra

/-!
# Exact placement

Items are spread over places; `home` says where each item belongs, if anywhere, and `count` says how
often each place mentions it. The placement is **exact** when every place mentions an item once if
that is its home and not at all otherwise. Exactness is one statement and contains all of: no item
is lost, none is duplicated, none is in the wrong place, and no place mentions an item that has no
home.

A system that moves one item at a time keeps the placement exact by `Exact.of_touch`: the other
items keep their home and their counts, so only the counts of the moved item are left to compute.
-/

namespace Placement

variable {α π : Type*} [DecidableEq π]

/-- Every item is mentioned once by its home and by no other place. -/
def Exact (home : α → Option π) (count : π → α → ℕ) : Prop :=
  ∀ a p, count p a = if home a = some p then 1 else 0

variable {home home' : α → Option π} {count count' : π → α → ℕ}

/-- How often the lists of a family mention an item, after one of them is replaced. -/
theorem count_update {κ : Type*} [DecidableEq κ] [DecidableEq α] (f : κ → List α) (k k' : κ)
    (l : List α) (a : α) :
    (Function.update f k l k').count a = if k = k' then l.count a else (f k').count a := by
  by_cases hk : k = k'
  · subst hk
    rw [Function.update_self, if_pos rfl]
  · rw [Function.update_of_ne (Ne.symm hk), if_neg hk]

/-- **One item moves.** -/
theorem Exact.of_touch (h : Exact home count) (a : α) (hhome : ∀ x, x ≠ a → home' x = home x)
    (hcount : ∀ p x, x ≠ a → count' p x = count p x)
    (ha : ∀ p, count' p a = if home' a = some p then 1 else 0) : Exact home' count' := by
  intro x p
  by_cases hx : x = a
  · subst hx
    exact ha p
  · rw [hcount p x hx, hhome x hx]
    exact h x p

/-- The counts of an item that has no home. -/
theorem Exact.eq_zero_of_none (h : Exact home count) {a : α} (ha : home a = none) (p : π) :
    count p a = 0 := by
  rw [h a p, ha, if_neg (by simp)]

/-- The count of an item at its home. -/
theorem Exact.eq_one (h : Exact home count) {a : α} {p : π} (ha : home a = some p) :
    count p a = 1 := by
  rw [h a p, if_pos ha]

/-- A place that mentions an item is its home. -/
theorem Exact.home_eq (h : Exact home count) {a : α} {p : π} (ha : count p a ≠ 0) :
    home a = some p := by
  by_contra hne
  exact ha (by rw [h a p, if_neg hne])

end Placement
