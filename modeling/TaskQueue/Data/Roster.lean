import Mathlib.Algebra.Order.Group.Nat

/-!
# Rosters

A roster is a list of parties numbered by their positions. A newcomer is added at the end, so that
numbers are never reused, and a party changes by replacing its entry. These are the two edits; for
each of them, what is at a number afterwards and how many parties have a property.

The count is stated without subtraction: what the entry counted before and what it counts now stand
on opposite sides (`countP_replace`), so that a counter kept beside the roster can be compared with
it by linear arithmetic.

Several parties may have the same label. `IsLast l x k` says that the latest of those labelled `x`
is number `k`.
-/

namespace Roster

variable {α β : Type*} {l : List α} {i : ℕ} {a b : α}

/-- The roster after party `i` changed to `b`. -/
theorem getElem?_replace (h : l[i]? = some a) (b : α) (k : ℕ) :
    (l.set i b)[k]? = if k = i then some b else l[k]? := by
  obtain ⟨hlt, -⟩ := List.getElem?_eq_some_iff.1 h
  rw [List.getElem?_set]
  simp only [hlt, if_true, eq_comm]

/-- The roster after `b` was added. -/
theorem getElem?_join (l : List α) (b : α) (k : ℕ) :
    (l ++ [b])[k]? = if k = l.length then some b else l[k]? := by
  rcases lt_trichotomy k l.length with hlt | rfl | hlt
  · rw [List.getElem?_append_left hlt, if_neg hlt.ne]
  · rw [List.getElem?_append_right le_rfl, Nat.sub_self, if_pos rfl]
    rfl
  · rw [if_neg hlt.ne', List.getElem?_eq_none hlt.le, List.getElem?_eq_none]
    rw [List.length_append]
    exact hlt

/-- **How a count changes when party `i` changes.** -/
theorem countP_replace (p : α → Bool) (h : l[i]? = some a) (b : α) :
    (l.set i b).countP p + (p a).toNat = l.countP p + (p b).toNat := by
  obtain ⟨hlt, rfl⟩ := List.getElem?_eq_some_iff.1 h
  have hcount : p l[i] = true → 0 < l.countP p := fun hp ↦
    List.countP_pos_iff.2 ⟨_, List.getElem_mem hlt, hp⟩
  rw [List.countP_set hlt]
  rcases hp : p l[i] with - | -
  · cases p b <;> simp
  · have hpos := hcount hp
    cases p b <;> simp <;> omega

/-- What a change of a party does not touch. -/
theorem map_replace {f : α → β} (h : l[i]? = some a) (hf : f b = f a) :
    (l.set i b).map f = l.map f := by
  obtain ⟨hlt, rfl⟩ := List.getElem?_eq_some_iff.1 h
  rw [List.map_set, hf, ← List.getElem_map f (h := by simpa using hlt), List.set_getElem_self]

/-! ### The latest party with a label -/

/-- The last entry `x` of the list is number `k`. -/
def IsLast (l : List α) (x : α) (k : ℕ) : Prop := l[k]? = some x ∧ x ∉ l.drop (k + 1)

instance [DecidableEq α] (l : List α) (x : α) (k : ℕ) : Decidable (IsLast l x k) :=
  inferInstanceAs (Decidable (_ ∧ _))

variable {x y : α} {k : ℕ}

theorem IsLast.lt_length (h : IsLast l x k) : k < l.length :=
  (List.getElem?_eq_some_iff.1 h.1).1

/-- A newcomer with the label is the latest, and other labels do not see it. -/
theorem isLast_join [DecidableEq α] :
    IsLast (l ++ [y]) x k ↔ if x = y then k = l.length else IsLast l x k := by
  split_ifs with hxy
  · subst hxy
    constructor
    · rintro ⟨hk, hlast⟩
      have hlt : k < (l ++ [x]).length := (List.getElem?_eq_some_iff.1 hk).1
      rw [List.length_append] at hlt
      refine le_antisymm (Nat.le_of_lt_succ hlt) (not_lt.1 fun hlt' ↦ hlast ?_)
      rw [List.drop_append_of_le_length hlt']
      exact List.mem_append_right _ (List.mem_singleton_self x)
    · rintro rfl
      refine ⟨by rw [getElem?_join, if_pos rfl], ?_⟩
      rw [List.drop_of_length_le (by simp)]
      exact List.not_mem_nil
  · have hat : (l ++ [y])[k]? = some x ↔ l[k]? = some x := by
      rw [getElem?_join]
      split_ifs with hk
      · rw [hk, List.getElem?_eq_none le_rfl]
        exact iff_of_false (fun heq ↦ hxy (Option.some.inj heq).symm) (by simp)
      · rfl
    have hafter : x ∈ (l ++ [y]).drop (k + 1) ↔ x ∈ l.drop (k + 1) := by
      rw [List.drop_append, List.mem_append]
      refine or_iff_left fun hmem ↦ hxy ?_
      exact List.mem_singleton.1 (List.mem_of_mem_drop hmem)
    rw [IsLast, IsLast, hat, hafter]

end Roster
